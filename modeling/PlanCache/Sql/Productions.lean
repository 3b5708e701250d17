import PlanCache.Sql.Part

/-!
The SQL grammar: what each rule may read.
-/

open PlanCache.Kind PlanCache.Rule PlanCache.Part PlanCache.Production

namespace PlanCache

/-- Right-hand sides of the rules. An operator's level is how tightly it binds; its right operand
takes only operators that bind tighter. -/
def Rule.production : Rule → Production
  | .parse => sequence [many [sqlStmtList], eof]
  | .sqlStmtList =>
    sequence [many [semicolon], sqlStmt, many [some [semicolon], sqlStmt], many [semicolon]]
  | .sqlStmt =>
    sequence [opt [EXPLAIN, opt [QUERY, PLAN]],
      either [
        [alterTableStmt],
        [analyzeStmt],
        [attachStmt],
        [beginStmt],
        [commitStmt],
        [createIndexStmt],
        [createTableStmt],
        [createTriggerStmt],
        [createViewStmt],
        [createVirtualTableStmt],
        [deleteStmt],
        [deleteStmtLimited],
        [detachStmt],
        [dropStmt],
        [insertStmt],
        [pragmaStmt],
        [reindexStmt],
        [releaseStmt],
        [rollbackStmt],
        [savepointStmt],
        [selectStmt],
        [updateStmt],
        [updateStmtLimited],
        [vacuumStmt]]]
  | .alterTableStmt =>
    sequence [ALTER, TABLE, opt [schemaName, dot], tableName,
      either [
        [RENAME,
          either [
            [TO, named .newTableName tableName],
            [opt [COLUMN], named .oldColumnName columnName, TO, named .newColumnName columnName]]],
        [ADD, opt [COLUMN], columnDef],
        [DROP, opt [COLUMN], columnName]]]
  | .analyzeStmt =>
    sequence [ANALYZE, eitherOpt [[schemaName], [opt [schemaName, dot], tableOrIndexName]]]
  | .attachStmt => sequence [ATTACH, opt [DATABASE], expr, AS, schemaName]
  | .beginStmt =>
    sequence [BEGIN, opt [among [DEFERRED, IMMEDIATE, EXCLUSIVE]],
      opt [TRANSACTION, opt [transactionName]]]
  | .commitStmt => sequence [among [COMMIT, END], opt [TRANSACTION]]
  | .rollbackStmt =>
    sequence [ROLLBACK, opt [TRANSACTION], opt [TO, opt [SAVEPOINT], savepointName]]
  | .savepointStmt => sequence [SAVEPOINT, savepointName]
  | .releaseStmt => sequence [RELEASE, opt [SAVEPOINT], savepointName]
  | .createIndexStmt =>
    sequence [CREATE, opt [UNIQUE], INDEX, opt [IF, NOT, EXISTS], opt [schemaName, dot],
      indexName, ON, tableName, openParen, indexedColumn, many [comma, indexedColumn], closeParen,
      opt [WHERE, expr]]
  | .indexedColumn =>
    sequence [either [[columnName], [expr]], opt [COLLATE, collationName], opt [ascDesc]]
  | .createTableStmt =>
    sequence [CREATE, opt [among [TEMP, TEMPORARY]], TABLE, opt [IF, NOT, EXISTS],
      opt [schemaName, dot], tableName,
      either [
        [openParen, columnDef, fewest [comma, columnDef], many [comma, tableConstraint],
          closeParen, opt [WITHOUT, named .rowId identifier]],
        [AS, selectStmt]]]
  | .columnDef => sequence [columnName, opt [typeName], many [columnConstraint]]
  | .typeName =>
    sequence [fewestSome [plainName],
      eitherOpt [
        [openParen, signedNumber, closeParen],
        [openParen, signedNumber, comma, signedNumber, closeParen]]]
  | .columnConstraint =>
    sequence [opt [CONSTRAINT, plainName],
      either [
        [PRIMARY, KEY, opt [ascDesc], opt [conflictClause], opt [AUTOINCREMENT]],
        [either [[opt [NOT], NULL], [UNIQUE]], opt [conflictClause]],
        [CHECK, openParen, expr, closeParen],
        [DEFAULT, either [[signedNumber], [literalValue], [openParen, expr, closeParen]]],
        [COLLATE, collationName],
        [foreignKeyClause],
        [opt [GENERATED, ALWAYS], AS, openParen, expr, closeParen, opt [among [STORED, VIRTUAL]]]]]
  | .signedNumber => sequence [opt [among [plus, minus]], number]
  | .tableConstraint =>
    sequence [opt [CONSTRAINT, plainName],
      either [
        [either [[PRIMARY, KEY], [UNIQUE]], openParen, indexedColumn, many [comma, indexedColumn],
          closeParen, opt [conflictClause]],
        [CHECK, openParen, expr, closeParen],
        [FOREIGN, KEY, openParen, columnName, many [comma, columnName], closeParen,
          foreignKeyClause]]]
  | .foreignKeyClause =>
    sequence [REFERENCES, foreignTable,
      opt [openParen, columnName, many [comma, columnName], closeParen],
      many [
        either [
          [ON, among [DELETE, UPDATE],
            either [[SET, among [NULL, DEFAULT]], [CASCADE], [RESTRICT], [NO, ACTION]]],
          [MATCH, plainName]]],
      opt [opt [NOT], DEFERRABLE, opt [INITIALLY, among [DEFERRED, IMMEDIATE]]]]
  | .conflictClause => sequence [ON, CONFLICT, among [ROLLBACK, ABORT, FAIL, IGNORE, REPLACE]]
  | .createTriggerStmt =>
    sequence [CREATE, opt [among [TEMP, TEMPORARY]], TRIGGER, opt [IF, NOT, EXISTS],
      opt [schemaName, dot], triggerName, eitherOpt [[BEFORE], [AFTER], [INSTEAD, OF]],
      either [[DELETE], [INSERT], [UPDATE, opt [OF, columnName, many [comma, columnName]]]], ON,
      tableName, opt [FOR, EACH, ROW], opt [WHEN, expr], BEGIN,
      some [either [[updateStmt], [insertStmt], [deleteStmt], [selectStmt]], semicolon], END]
  | .createViewStmt =>
    sequence [CREATE, opt [among [TEMP, TEMPORARY]], VIEW, opt [IF, NOT, EXISTS],
      opt [schemaName, dot], viewName,
      opt [openParen, columnName, many [comma, columnName], closeParen], AS, selectStmt]
  | .createVirtualTableStmt =>
    sequence [CREATE, VIRTUAL, TABLE, opt [IF, NOT, EXISTS], opt [schemaName, dot], tableName,
      USING, moduleName,
      opt [openParen, moduleArgument, many [comma, moduleArgument], closeParen]]
  | .withClause =>
    sequence [WITH, opt [RECURSIVE], cteTableName, AS, openParen, selectStmt, closeParen,
      many [comma, cteTableName, AS, openParen, selectStmt, closeParen]]
  | .cteTableName =>
    sequence [tableName, opt [openParen, columnName, many [comma, columnName], closeParen]]
  | .recursiveCte =>
    sequence [cteTableName, AS, openParen, initialSelect, UNION, opt [ALL], recursiveSelect,
      closeParen]
  | .commonTableExpression =>
    sequence [tableName, opt [openParen, columnName, many [comma, columnName], closeParen], AS,
      openParen, selectStmt, closeParen]
  | .deleteStmt =>
    sequence [opt [withClause], DELETE, FROM, qualifiedTableName, opt [WHERE, expr],
      opt [returningClause]]
  | .deleteStmtLimited =>
    sequence [opt [withClause], DELETE, FROM, qualifiedTableName, opt [WHERE, expr],
      opt [returningClause], opt [opt [orderByStmt], limitStmt]]
  | .detachStmt => sequence [DETACH, opt [DATABASE], schemaName]
  | .dropStmt =>
    sequence [DROP, named .object (among [INDEX, TABLE, TRIGGER, VIEW]), opt [IF, EXISTS],
      opt [schemaName, dot], anyName]
  | .expr =>
    operatorRule [
      [literalValue],
      [parameter],
      [opt [opt [schemaName, dot], tableName, dot], columnName],
      [unaryOperator, operand 21],
      [functionName, openParen, eitherOpt [[opt [DISTINCT], expr, many [comma, expr]], [star]],
        closeParen, opt [filterClause], opt [overClause]],
      [openParen, expr, many [comma, expr], closeParen],
      [CAST, openParen, expr, AS, typeName, closeParen],
      [opt [opt [NOT], EXISTS], openParen, selectStmt, closeParen],
      [CASE, opt [expr], some [WHEN, expr, THEN, expr], opt [ELSE, expr], END],
      [raiseFunction]] [
      [level 20, concat, operand 21],
      [level 19, among [star, slash, percent], operand 20],
      [level 18, among [plus, minus], operand 19],
      [level 17, among [shiftLeft, shiftRight, ampersand, bar], operand 18],
      [level 16, among [less, lessEq, greater, greaterEq], operand 17],
      [level 15,
        either [
          [assign],
          [equal],
          [notEqual],
          [lessGreater],
          [IS],
          [IS, NOT],
          [IS, opt [NOT], DISTINCT, FROM],
          [IN],
          [LIKE],
          [GLOB],
          [MATCH],
          [REGEXP]], operand 16],
      [level 14, AND, operand 15],
      [level 13, OR, operand 14],
      [level 6, IS, opt [NOT], operand 7],
      [level 5, opt [NOT], BETWEEN, expr, AND, operand 6],
      [level 9, COLLATE, collationName],
      [level 8, opt [NOT], among [LIKE, GLOB, REGEXP, MATCH], expr, opt [ESCAPE, expr]],
      [level 7, either [[ISNULL], [NOTNULL], [NOT, NULL]]],
      [level 4, opt [NOT], IN,
        either [
          [openParen, eitherOpt [[selectStmt], [expr, many [comma, expr]]], closeParen],
          [opt [schemaName, dot], tableName],
          [opt [schemaName, dot], tableFunctionName, openParen, opt [expr, many [comma, expr]],
            closeParen]]]]
  | .raiseFunction =>
    sequence [RAISE, openParen,
      either [[IGNORE], [among [ROLLBACK, ABORT, FAIL], comma, errorMessage]], closeParen]
  | .literalValue =>
    sequence [
      among [number, string, blob, NULL, TRUE, FALSE, CURRENT_TIME, CURRENT_DATE,
        CURRENT_TIMESTAMP]]
  | .valueRow => sequence [openParen, expr, many [comma, expr], closeParen]
  | .valuesClause => sequence [VALUES, valueRow, many [comma, valueRow]]
  | .insertStmt =>
    sequence [opt [withClause],
      either [[INSERT], [REPLACE], [INSERT, OR, among [REPLACE, ROLLBACK, ABORT, FAIL, IGNORE]]],
      INTO, opt [schemaName, dot], tableName, opt [AS, tableAlias],
      opt [openParen, columnName, many [comma, columnName], closeParen],
      either [[either [[valuesClause], [selectStmt]], opt [upsertClause]], [DEFAULT, VALUES]],
      opt [returningClause]]
  | .returningClause => sequence [RETURNING, resultColumn, many [comma, resultColumn]]
  | .upsertClause =>
    sequence [ON, CONFLICT,
      opt [openParen, indexedColumn, many [comma, indexedColumn], closeParen, opt [WHERE, expr]],
      DO,
      either [
        [NOTHING],
        [UPDATE, SET, either [[columnName], [columnNameList]], assign, expr,
          many [comma, either [[columnName], [columnNameList]], assign, expr], opt [WHERE, expr]]]]
  | .pragmaStmt =>
    sequence [PRAGMA, opt [schemaName, dot], pragmaName,
      eitherOpt [[assign, pragmaValue], [openParen, pragmaValue, closeParen]]]
  | .pragmaValue =>
    alternatives [
      [signedNumber],
      [plainName],
      [string]]
  | .reindexStmt =>
    sequence [REINDEX,
      eitherOpt [[collationName], [opt [schemaName, dot], either [[tableName], [indexName]]]]]
  | .selectStmt =>
    sequence [opt [commonTableStmt], selectCore, many [compoundOperator, selectCore],
      opt [orderByStmt], opt [limitStmt]]
  | .joinClause =>
    sequence [tableOrSubquery, many [joinOperator, tableOrSubquery, opt [joinConstraint]]]
  | .selectCore =>
    alternatives [
      [SELECT, opt [among [DISTINCT, ALL]], resultColumn, many [comma, resultColumn],
        opt [FROM, either [[tableOrSubquery, many [comma, tableOrSubquery]], [joinClause]]],
        opt [WHERE, named .whereExpr expr],
        opt [GROUP, BY, named .groupByExpr expr, many [comma, named .groupByExpr expr],
          opt [HAVING, named .havingExpr expr]],
        opt [WINDOW, windowName, AS, windowDefn, many [comma, windowName, AS, windowDefn]]],
      [valuesClause]]
  | .factoredSelectStmt => sequence [selectStmt]
  | .simpleSelectStmt =>
    sequence [opt [commonTableStmt], selectCore, opt [orderByStmt], opt [limitStmt]]
  | .compoundSelectStmt =>
    sequence [opt [commonTableStmt], selectCore,
      some [either [[UNION, opt [ALL]], [INTERSECT], [EXCEPT]], selectCore], opt [orderByStmt],
      opt [limitStmt]]
  | .tableOrSubquery =>
    alternatives [
      [opt [schemaName, dot], tableName, opt [opt [AS], tableAlias],
        eitherOpt [[INDEXED, BY, indexName], [NOT, INDEXED]]],
      [opt [schemaName, dot], tableFunctionName, openParen, expr, many [comma, expr], closeParen,
        opt [opt [AS], tableAlias]],
      [openParen, either [[tableOrSubquery, many [comma, tableOrSubquery]], [joinClause]],
        closeParen],
      [openParen, selectStmt, closeParen, opt [opt [AS], tableAlias]]]
  | .resultColumn =>
    alternatives [
      [star],
      [tableName, dot, star],
      [expr, opt [opt [AS], columnAlias]]]
  | .joinOperator =>
    alternatives [
      [comma],
      [opt [NATURAL], eitherOpt [[among [LEFT, RIGHT, FULL], opt [OUTER]], [INNER], [CROSS]],
        JOIN]]
  | .joinConstraint =>
    alternatives [
      [ON, expr],
      [USING, openParen, columnName, many [comma, columnName], closeParen]]
  | .compoundOperator =>
    alternatives [
      [UNION, opt [ALL]],
      [INTERSECT],
      [EXCEPT]]
  | .updateStmt =>
    sequence [opt [withClause], UPDATE, opt [OR, among [ROLLBACK, ABORT, REPLACE, FAIL, IGNORE]],
      qualifiedTableName, SET, either [[columnName], [columnNameList]], assign, expr,
      many [comma, either [[columnName], [columnNameList]], assign, expr],
      opt [FROM, either [[tableOrSubquery, many [comma, tableOrSubquery]], [joinClause]]],
      opt [WHERE, expr], opt [returningClause]]
  | .columnNameList => sequence [openParen, columnName, many [comma, columnName], closeParen]
  | .updateStmtLimited =>
    sequence [opt [withClause], UPDATE, opt [OR, among [ROLLBACK, ABORT, REPLACE, FAIL, IGNORE]],
      qualifiedTableName, SET, either [[columnName], [columnNameList]], assign, expr,
      many [comma, either [[columnName], [columnNameList]], assign, expr], opt [WHERE, expr],
      opt [returningClause], opt [opt [orderByStmt], limitStmt]]
  | .qualifiedTableName =>
    sequence [opt [schemaName, dot], tableName, opt [AS, aliasName],
      eitherOpt [[INDEXED, BY, indexName], [NOT, INDEXED]]]
  | .vacuumStmt => sequence [VACUUM, opt [schemaName], opt [INTO, filename]]
  | .filterClause => sequence [FILTER, openParen, WHERE, expr, closeParen]
  | .windowDefn =>
    sequence [openParen, opt [baseWindowName], opt [PARTITION, BY, expr, many [comma, expr]],
      ORDER, BY, orderingTerm, many [comma, orderingTerm], opt [frameSpec], closeParen]
  | .overClause =>
    sequence [OVER,
      either [
        [windowName],
        [openParen, opt [baseWindowName], opt [PARTITION, BY, expr, many [comma, expr]],
          opt [ORDER, BY, orderingTerm, many [comma, orderingTerm]], opt [frameSpec], closeParen]]]
  | .frameSpec =>
    sequence [frameClause, opt [EXCLUDE, either [[NO, OTHERS], [CURRENT, ROW], [GROUP], [TIES]]]]
  | .frameClause =>
    sequence [among [RANGE, ROWS, GROUPS],
      either [[frameSingle], [BETWEEN, frameLeft, AND, frameRight]]]
  | .simpleFunctionInvocation =>
    sequence [simpleFunc, openParen, either [[expr, many [comma, expr]], [star]], closeParen]
  | .aggregateFunctionInvocation =>
    sequence [aggregateFunc, openParen,
      eitherOpt [[opt [DISTINCT], expr, many [comma, expr]], [star]], closeParen,
      opt [filterClause]]
  | .windowFunctionInvocation =>
    sequence [windowFunction, openParen, eitherOpt [[expr, many [comma, expr]], [star]],
      closeParen, opt [filterClause], OVER, either [[windowDefn], [windowName]]]
  | .commonTableStmt =>
    sequence [WITH, opt [RECURSIVE], commonTableExpression, many [comma, commonTableExpression]]
  | .orderByStmt => sequence [ORDER, BY, orderingTerm, many [comma, orderingTerm]]
  | .limitStmt => sequence [LIMIT, expr, opt [among [OFFSET, comma], expr]]
  | .orderingTerm =>
    sequence [expr, opt [COLLATE, collationName], opt [ascDesc], opt [NULLS, among [FIRST, LAST]]]
  | .ascDesc => sequence [among [ASC, DESC]]
  | .frameLeft =>
    alternatives [
      [expr, PRECEDING],
      [expr, FOLLOWING],
      [CURRENT, ROW],
      [UNBOUNDED, PRECEDING]]
  | .frameRight =>
    alternatives [
      [expr, PRECEDING],
      [expr, FOLLOWING],
      [CURRENT, ROW],
      [UNBOUNDED, FOLLOWING]]
  | .frameSingle =>
    alternatives [
      [expr, PRECEDING],
      [UNBOUNDED, PRECEDING],
      [CURRENT, ROW]]
  | .windowFunction =>
    alternatives [
      [among [FIRST_VALUE, LAST_VALUE], openParen, expr, closeParen, OVER, openParen,
        opt [partitionBy], orderByExprAscDesc, opt [frameClause], closeParen],
      [among [CUME_DIST, PERCENT_RANK], openParen, closeParen, OVER, openParen, opt [partitionBy],
        opt [orderByExpr], closeParen],
      [among [DENSE_RANK, RANK, ROW_NUMBER], openParen, closeParen, OVER, openParen,
        opt [partitionBy], orderByExprAscDesc, closeParen],
      [among [LAG, LEAD], openParen, expr, opt [offset], opt [defaultValue], closeParen, OVER,
        openParen, opt [partitionBy], orderByExprAscDesc, closeParen],
      [NTH_VALUE, openParen, expr, comma, signedNumber, closeParen, OVER, openParen,
        opt [partitionBy], orderByExprAscDesc, opt [frameClause], closeParen],
      [NTILE, openParen, expr, closeParen, OVER, openParen, opt [partitionBy], orderByExprAscDesc,
        closeParen]]
  | .offset => sequence [comma, signedNumber]
  | .defaultValue => sequence [comma, signedNumber]
  | .partitionBy => sequence [PARTITION, BY, some [expr]]
  | .orderByExpr => sequence [ORDER, BY, some [expr]]
  | .orderByExprAscDesc => sequence [ORDER, BY, exprAscDesc]
  | .exprAscDesc => sequence [expr, opt [ascDesc], many [comma, expr, opt [ascDesc]]]
  | .initialSelect => sequence [selectStmt]
  | .recursiveSelect => sequence [selectStmt]
  | .unaryOperator => sequence [among [minus, plus, tilde, NOT]]
  | .errorMessage => sequence [string]
  | .moduleArgument =>
    alternatives [
      [expr],
      [columnDef]]
  | .columnAlias => sequence [among [identifier, string]]
  | .keyword =>
    sequence [
      among [ABORT, ACTION, ADD, AFTER, ALL, ALTER, ANALYZE, AND, AS, ASC, ATTACH, AUTOINCREMENT,
        BEFORE, BEGIN, BETWEEN, BY, CASCADE, CASE, CAST, CHECK, COLLATE, COLUMN, COMMIT, CONFLICT,
        CONSTRAINT, CREATE, CROSS, CURRENT_DATE, CURRENT_TIME, CURRENT_TIMESTAMP, DATABASE,
        DEFAULT, DEFERRABLE, DEFERRED, DELETE, DESC, DETACH, DISTINCT, DROP, EACH, ELSE, END,
        ESCAPE, EXCEPT, EXCLUSIVE, EXISTS, EXPLAIN, FAIL, FOR, FOREIGN, FROM, FULL, GLOB, GROUP,
        HAVING, IF, IGNORE, IMMEDIATE, IN, INDEX, INDEXED, INITIALLY, INNER, INSERT, INSTEAD,
        INTERSECT, INTO, IS, ISNULL, JOIN, KEY, LEFT, LIKE, LIMIT, MATCH, NATURAL, NO, NOT,
        NOTNULL, NULL, OF, OFFSET, ON, OR, ORDER, OUTER, PLAN, PRAGMA, PRIMARY, QUERY, RAISE,
        RECURSIVE, REFERENCES, REGEXP, REINDEX, RELEASE, RENAME, REPLACE, RESTRICT, RIGHT,
        ROLLBACK, ROW, ROWS, SAVEPOINT, SELECT, SET, TABLE, TEMP, TEMPORARY, THEN, TO,
        TRANSACTION, TRIGGER, UNION, UNIQUE, UPDATE, USING, VACUUM, VALUES, VIEW, VIRTUAL, WHEN,
        WHERE, WITH, WITHOUT, FIRST_VALUE, OVER, PARTITION, RANGE, PRECEDING, UNBOUNDED, CURRENT,
        FOLLOWING, CUME_DIST, DENSE_RANK, LAG, LAST_VALUE, LEAD, NTH_VALUE, NTILE, PERCENT_RANK,
        RANK, ROW_NUMBER, GENERATED, ALWAYS, STORED, TRUE, FALSE, WINDOW, NULLS, FIRST, LAST,
        FILTER, GROUPS, EXCLUDE]]
  | .plainName => sequence [anyName]
  | .functionName => sequence [anyName]
  | .schemaName => sequence [anyName]
  | .tableName => sequence [anyName]
  | .tableOrIndexName => sequence [anyName]
  | .columnName => sequence [anyName]
  | .collationName => sequence [anyName]
  | .foreignTable => sequence [anyName]
  | .indexName => sequence [anyName]
  | .triggerName => sequence [anyName]
  | .viewName => sequence [anyName]
  | .moduleName => sequence [anyName]
  | .pragmaName => sequence [anyName]
  | .savepointName => sequence [anyName]
  | .tableAlias => sequence [anyName]
  | .transactionName => sequence [anyName]
  | .windowName => sequence [anyName]
  | .aliasName => sequence [anyName]
  | .filename => sequence [anyName]
  | .baseWindowName => sequence [anyName]
  | .simpleFunc => sequence [anyName]
  | .aggregateFunc => sequence [anyName]
  | .tableFunctionName => sequence [anyName]
  | .anyName =>
    alternatives [
      [identifier],
      [keyword],
      [string],
      [openParen, anyName, closeParen]]

end PlanCache
