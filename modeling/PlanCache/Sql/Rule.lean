/-!
Rules of the SQL grammar. The tree names each of its inner nodes after one of them.
-/

namespace PlanCache

/-- Rules, from whole scripts down to names. -/
inductive Rule where
  | parse | sqlStmtList | sqlStmt | alterTableStmt | analyzeStmt | attachStmt | beginStmt
  | commitStmt | rollbackStmt | savepointStmt | releaseStmt | createIndexStmt | indexedColumn
  | createTableStmt | columnDef | typeName | columnConstraint | signedNumber | tableConstraint
  | foreignKeyClause | conflictClause | createTriggerStmt | createViewStmt
  | createVirtualTableStmt | withClause | cteTableName | recursiveCte | commonTableExpression
  | deleteStmt | deleteStmtLimited | detachStmt | dropStmt | expr | raiseFunction | literalValue
  | valueRow | valuesClause | insertStmt | returningClause | upsertClause | pragmaStmt
  | pragmaValue | reindexStmt | selectStmt | joinClause | selectCore | factoredSelectStmt
  | simpleSelectStmt | compoundSelectStmt | tableOrSubquery | resultColumn | joinOperator
  | joinConstraint | compoundOperator | updateStmt | columnNameList | updateStmtLimited
  | qualifiedTableName | vacuumStmt | filterClause | windowDefn | overClause | frameSpec
  | frameClause | simpleFunctionInvocation | aggregateFunctionInvocation
  | windowFunctionInvocation | commonTableStmt | orderByStmt | limitStmt | orderingTerm | ascDesc
  | frameLeft | frameRight | frameSingle | windowFunction | offset | defaultValue | partitionBy
  | orderByExpr | orderByExprAscDesc | exprAscDesc | initialSelect | recursiveSelect
  | unaryOperator | errorMessage | moduleArgument | columnAlias | keyword | plainName
  | functionName | schemaName | tableName | tableOrIndexName | columnName | collationName
  | foreignTable | indexName | triggerName | viewName | moduleName | pragmaName | savepointName
  | tableAlias | transactionName | windowName | aliasName | filename | baseWindowName | simpleFunc
  | aggregateFunc | tableFunctionName | anyName
deriving DecidableEq, Repr, Inhabited

namespace Rule

def count : Nat := 113

def all : List Rule := (List.range count).map Rule.ofNat

def title : Rule → String
  | .parse => "parse"
  | .sqlStmtList => "sql_stmt_list"
  | .sqlStmt => "sql_stmt"
  | .alterTableStmt => "alter_table_stmt"
  | .analyzeStmt => "analyze_stmt"
  | .attachStmt => "attach_stmt"
  | .beginStmt => "begin_stmt"
  | .commitStmt => "commit_stmt"
  | .rollbackStmt => "rollback_stmt"
  | .savepointStmt => "savepoint_stmt"
  | .releaseStmt => "release_stmt"
  | .createIndexStmt => "create_index_stmt"
  | .indexedColumn => "indexed_column"
  | .createTableStmt => "create_table_stmt"
  | .columnDef => "column_def"
  | .typeName => "type_name"
  | .columnConstraint => "column_constraint"
  | .signedNumber => "signed_number"
  | .tableConstraint => "table_constraint"
  | .foreignKeyClause => "foreign_key_clause"
  | .conflictClause => "conflict_clause"
  | .createTriggerStmt => "create_trigger_stmt"
  | .createViewStmt => "create_view_stmt"
  | .createVirtualTableStmt => "create_virtual_table_stmt"
  | .withClause => "with_clause"
  | .cteTableName => "cte_table_name"
  | .recursiveCte => "recursive_cte"
  | .commonTableExpression => "common_table_expression"
  | .deleteStmt => "delete_stmt"
  | .deleteStmtLimited => "delete_stmt_limited"
  | .detachStmt => "detach_stmt"
  | .dropStmt => "drop_stmt"
  | .expr => "expr"
  | .raiseFunction => "raise_function"
  | .literalValue => "literal_value"
  | .valueRow => "value_row"
  | .valuesClause => "values_clause"
  | .insertStmt => "insert_stmt"
  | .returningClause => "returning_clause"
  | .upsertClause => "upsert_clause"
  | .pragmaStmt => "pragma_stmt"
  | .pragmaValue => "pragma_value"
  | .reindexStmt => "reindex_stmt"
  | .selectStmt => "select_stmt"
  | .joinClause => "join_clause"
  | .selectCore => "select_core"
  | .factoredSelectStmt => "factored_select_stmt"
  | .simpleSelectStmt => "simple_select_stmt"
  | .compoundSelectStmt => "compound_select_stmt"
  | .tableOrSubquery => "table_or_subquery"
  | .resultColumn => "result_column"
  | .joinOperator => "join_operator"
  | .joinConstraint => "join_constraint"
  | .compoundOperator => "compound_operator"
  | .updateStmt => "update_stmt"
  | .columnNameList => "column_name_list"
  | .updateStmtLimited => "update_stmt_limited"
  | .qualifiedTableName => "qualified_table_name"
  | .vacuumStmt => "vacuum_stmt"
  | .filterClause => "filter_clause"
  | .windowDefn => "window_defn"
  | .overClause => "over_clause"
  | .frameSpec => "frame_spec"
  | .frameClause => "frame_clause"
  | .simpleFunctionInvocation => "simple_function_invocation"
  | .aggregateFunctionInvocation => "aggregate_function_invocation"
  | .windowFunctionInvocation => "window_function_invocation"
  | .commonTableStmt => "common_table_stmt"
  | .orderByStmt => "order_by_stmt"
  | .limitStmt => "limit_stmt"
  | .orderingTerm => "ordering_term"
  | .ascDesc => "asc_desc"
  | .frameLeft => "frame_left"
  | .frameRight => "frame_right"
  | .frameSingle => "frame_single"
  | .windowFunction => "window_function"
  | .offset => "offset"
  | .defaultValue => "default_value"
  | .partitionBy => "partition_by"
  | .orderByExpr => "order_by_expr"
  | .orderByExprAscDesc => "order_by_expr_asc_desc"
  | .exprAscDesc => "expr_asc_desc"
  | .initialSelect => "initial_select"
  | .recursiveSelect => "recursive_select"
  | .unaryOperator => "unary_operator"
  | .errorMessage => "error_message"
  | .moduleArgument => "module_argument"
  | .columnAlias => "column_alias"
  | .keyword => "keyword"
  | .plainName => "name"
  | .functionName => "function_name"
  | .schemaName => "schema_name"
  | .tableName => "table_name"
  | .tableOrIndexName => "table_or_index_name"
  | .columnName => "column_name"
  | .collationName => "collation_name"
  | .foreignTable => "foreign_table"
  | .indexName => "index_name"
  | .triggerName => "trigger_name"
  | .viewName => "view_name"
  | .moduleName => "module_name"
  | .pragmaName => "pragma_name"
  | .savepointName => "savepoint_name"
  | .tableAlias => "table_alias"
  | .transactionName => "transaction_name"
  | .windowName => "window_name"
  | .aliasName => "alias"
  | .filename => "filename"
  | .baseWindowName => "base_window_name"
  | .simpleFunc => "simple_func"
  | .aggregateFunc => "aggregate_func"
  | .tableFunctionName => "table_function_name"
  | .anyName => "any_name"

def ofTitle? (s : String) : Option Rule := all.find? (·.title == s)

end Rule

end PlanCache
