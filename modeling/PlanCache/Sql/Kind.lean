/-!
Kinds of SQL tokens, in the order in which the lexical rules are tried, after the mark that ends
every input.
-/

namespace PlanCache

/-- Punctuation marks, keywords in capitals, then the kinds whose text varies. -/
inductive Kind where
  | eof | semicolon | dot | openParen | closeParen | comma | assign | star | plus | minus | tilde
  | concat | slash | percent | shiftLeft | shiftRight | ampersand | bar | less | lessEq | greater
  | greaterEq | equal | notEqual | lessGreater | ABORT | ACTION | ADD | AFTER | ALL | ALTER
  | ANALYZE | AND | AS | ASC | ATTACH | AUTOINCREMENT | BEFORE | BEGIN | BETWEEN | BY | CASCADE
  | CASE | CAST | CHECK | COLLATE | COLUMN | COMMIT | CONFLICT | CONSTRAINT | CREATE | CROSS
  | CURRENT_DATE | CURRENT_TIME | CURRENT_TIMESTAMP | DATABASE | DEFAULT | DEFERRABLE | DEFERRED
  | DELETE | DESC | DETACH | DISTINCT | DROP | EACH | ELSE | END | ESCAPE | EXCEPT | EXCLUSIVE
  | EXISTS | EXPLAIN | FAIL | FOR | FOREIGN | FROM | FULL | GLOB | GROUP | HAVING | IF | IGNORE
  | IMMEDIATE | IN | INDEX | INDEXED | INITIALLY | INNER | INSERT | INSTEAD | INTERSECT | INTO
  | IS | ISNULL | JOIN | KEY | LEFT | LIKE | LIMIT | MATCH | NATURAL | NO | NOT | NOTNULL | NULL
  | OF | OFFSET | ON | OR | ORDER | OUTER | PLAN | PRAGMA | PRIMARY | QUERY | RAISE | RECURSIVE
  | REFERENCES | REGEXP | REINDEX | RELEASE | RENAME | REPLACE | RESTRICT | RETURNING | RIGHT
  | ROLLBACK | ROW | ROWS | SAVEPOINT | SELECT | SET | TABLE | TEMP | TEMPORARY | THEN | TO
  | TRANSACTION | TRIGGER | UNION | UNIQUE | UPDATE | USING | VACUUM | VALUES | VIEW | VIRTUAL
  | WHEN | WHERE | WITH | WITHOUT | FIRST_VALUE | OVER | PARTITION | RANGE | PRECEDING
  | UNBOUNDED | CURRENT | FOLLOWING | CUME_DIST | DENSE_RANK | LAG | LAST_VALUE | LEAD
  | NTH_VALUE | NTILE | PERCENT_RANK | RANK | ROW_NUMBER | GENERATED | ALWAYS | STORED | TRUE
  | FALSE | WINDOW | NULLS | FIRST | LAST | FILTER | GROUPS | EXCLUDE | TIES | OTHERS | DO
  | NOTHING | identifier | number | parameter | string | blob | lineComment | blockComment
  | blank | stray
deriving DecidableEq, Repr, Inhabited

namespace Kind

def count : Nat := 194

def all : List Kind := (List.range count).map Kind.ofNat

/-- Text of the kinds that have only one, keywords in capitals. -/
def spelling : Kind → Option String
  | .semicolon => some ";"
  | .dot => some "."
  | .openParen => some "("
  | .closeParen => some ")"
  | .comma => some ","
  | .assign => some "="
  | .star => some "*"
  | .plus => some "+"
  | .minus => some "-"
  | .tilde => some "~"
  | .concat => some "||"
  | .slash => some "/"
  | .percent => some "%"
  | .shiftLeft => some "<<"
  | .shiftRight => some ">>"
  | .ampersand => some "&"
  | .bar => some "|"
  | .less => some "<"
  | .lessEq => some "<="
  | .greater => some ">"
  | .greaterEq => some ">="
  | .equal => some "=="
  | .notEqual => some "!="
  | .lessGreater => some "<>"
  | .ABORT => some "ABORT"
  | .ACTION => some "ACTION"
  | .ADD => some "ADD"
  | .AFTER => some "AFTER"
  | .ALL => some "ALL"
  | .ALTER => some "ALTER"
  | .ANALYZE => some "ANALYZE"
  | .AND => some "AND"
  | .AS => some "AS"
  | .ASC => some "ASC"
  | .ATTACH => some "ATTACH"
  | .AUTOINCREMENT => some "AUTOINCREMENT"
  | .BEFORE => some "BEFORE"
  | .BEGIN => some "BEGIN"
  | .BETWEEN => some "BETWEEN"
  | .BY => some "BY"
  | .CASCADE => some "CASCADE"
  | .CASE => some "CASE"
  | .CAST => some "CAST"
  | .CHECK => some "CHECK"
  | .COLLATE => some "COLLATE"
  | .COLUMN => some "COLUMN"
  | .COMMIT => some "COMMIT"
  | .CONFLICT => some "CONFLICT"
  | .CONSTRAINT => some "CONSTRAINT"
  | .CREATE => some "CREATE"
  | .CROSS => some "CROSS"
  | .CURRENT_DATE => some "CURRENT_DATE"
  | .CURRENT_TIME => some "CURRENT_TIME"
  | .CURRENT_TIMESTAMP => some "CURRENT_TIMESTAMP"
  | .DATABASE => some "DATABASE"
  | .DEFAULT => some "DEFAULT"
  | .DEFERRABLE => some "DEFERRABLE"
  | .DEFERRED => some "DEFERRED"
  | .DELETE => some "DELETE"
  | .DESC => some "DESC"
  | .DETACH => some "DETACH"
  | .DISTINCT => some "DISTINCT"
  | .DROP => some "DROP"
  | .EACH => some "EACH"
  | .ELSE => some "ELSE"
  | .END => some "END"
  | .ESCAPE => some "ESCAPE"
  | .EXCEPT => some "EXCEPT"
  | .EXCLUSIVE => some "EXCLUSIVE"
  | .EXISTS => some "EXISTS"
  | .EXPLAIN => some "EXPLAIN"
  | .FAIL => some "FAIL"
  | .FOR => some "FOR"
  | .FOREIGN => some "FOREIGN"
  | .FROM => some "FROM"
  | .FULL => some "FULL"
  | .GLOB => some "GLOB"
  | .GROUP => some "GROUP"
  | .HAVING => some "HAVING"
  | .IF => some "IF"
  | .IGNORE => some "IGNORE"
  | .IMMEDIATE => some "IMMEDIATE"
  | .IN => some "IN"
  | .INDEX => some "INDEX"
  | .INDEXED => some "INDEXED"
  | .INITIALLY => some "INITIALLY"
  | .INNER => some "INNER"
  | .INSERT => some "INSERT"
  | .INSTEAD => some "INSTEAD"
  | .INTERSECT => some "INTERSECT"
  | .INTO => some "INTO"
  | .IS => some "IS"
  | .ISNULL => some "ISNULL"
  | .JOIN => some "JOIN"
  | .KEY => some "KEY"
  | .LEFT => some "LEFT"
  | .LIKE => some "LIKE"
  | .LIMIT => some "LIMIT"
  | .MATCH => some "MATCH"
  | .NATURAL => some "NATURAL"
  | .NO => some "NO"
  | .NOT => some "NOT"
  | .NOTNULL => some "NOTNULL"
  | .NULL => some "NULL"
  | .OF => some "OF"
  | .OFFSET => some "OFFSET"
  | .ON => some "ON"
  | .OR => some "OR"
  | .ORDER => some "ORDER"
  | .OUTER => some "OUTER"
  | .PLAN => some "PLAN"
  | .PRAGMA => some "PRAGMA"
  | .PRIMARY => some "PRIMARY"
  | .QUERY => some "QUERY"
  | .RAISE => some "RAISE"
  | .RECURSIVE => some "RECURSIVE"
  | .REFERENCES => some "REFERENCES"
  | .REGEXP => some "REGEXP"
  | .REINDEX => some "REINDEX"
  | .RELEASE => some "RELEASE"
  | .RENAME => some "RENAME"
  | .REPLACE => some "REPLACE"
  | .RESTRICT => some "RESTRICT"
  | .RETURNING => some "RETURNING"
  | .RIGHT => some "RIGHT"
  | .ROLLBACK => some "ROLLBACK"
  | .ROW => some "ROW"
  | .ROWS => some "ROWS"
  | .SAVEPOINT => some "SAVEPOINT"
  | .SELECT => some "SELECT"
  | .SET => some "SET"
  | .TABLE => some "TABLE"
  | .TEMP => some "TEMP"
  | .TEMPORARY => some "TEMPORARY"
  | .THEN => some "THEN"
  | .TO => some "TO"
  | .TRANSACTION => some "TRANSACTION"
  | .TRIGGER => some "TRIGGER"
  | .UNION => some "UNION"
  | .UNIQUE => some "UNIQUE"
  | .UPDATE => some "UPDATE"
  | .USING => some "USING"
  | .VACUUM => some "VACUUM"
  | .VALUES => some "VALUES"
  | .VIEW => some "VIEW"
  | .VIRTUAL => some "VIRTUAL"
  | .WHEN => some "WHEN"
  | .WHERE => some "WHERE"
  | .WITH => some "WITH"
  | .WITHOUT => some "WITHOUT"
  | .FIRST_VALUE => some "FIRST_VALUE"
  | .OVER => some "OVER"
  | .PARTITION => some "PARTITION"
  | .RANGE => some "RANGE"
  | .PRECEDING => some "PRECEDING"
  | .UNBOUNDED => some "UNBOUNDED"
  | .CURRENT => some "CURRENT"
  | .FOLLOWING => some "FOLLOWING"
  | .CUME_DIST => some "CUME_DIST"
  | .DENSE_RANK => some "DENSE_RANK"
  | .LAG => some "LAG"
  | .LAST_VALUE => some "LAST_VALUE"
  | .LEAD => some "LEAD"
  | .NTH_VALUE => some "NTH_VALUE"
  | .NTILE => some "NTILE"
  | .PERCENT_RANK => some "PERCENT_RANK"
  | .RANK => some "RANK"
  | .ROW_NUMBER => some "ROW_NUMBER"
  | .GENERATED => some "GENERATED"
  | .ALWAYS => some "ALWAYS"
  | .STORED => some "STORED"
  | .TRUE => some "TRUE"
  | .FALSE => some "FALSE"
  | .WINDOW => some "WINDOW"
  | .NULLS => some "NULLS"
  | .FIRST => some "FIRST"
  | .LAST => some "LAST"
  | .FILTER => some "FILTER"
  | .GROUPS => some "GROUPS"
  | .EXCLUDE => some "EXCLUDE"
  | .TIES => some "TIES"
  | .OTHERS => some "OTHERS"
  | .DO => some "DO"
  | .NOTHING => some "NOTHING"
  | _ => none

/-- Name of a kind: a keyword's is its spelling and an underscore. -/
def name (k : Kind) : String :=
  match k with
  | .eof => "EOF"
  | .semicolon => "SCOL"
  | .dot => "DOT"
  | .openParen => "OPEN_PAR"
  | .closeParen => "CLOSE_PAR"
  | .comma => "COMMA"
  | .assign => "ASSIGN"
  | .star => "STAR"
  | .plus => "PLUS"
  | .minus => "MINUS"
  | .tilde => "TILDE"
  | .concat => "PIPE2"
  | .slash => "DIV"
  | .percent => "MOD"
  | .shiftLeft => "LT2"
  | .shiftRight => "GT2"
  | .ampersand => "AMP"
  | .bar => "PIPE"
  | .less => "LT"
  | .lessEq => "LT_EQ"
  | .greater => "GT"
  | .greaterEq => "GT_EQ"
  | .equal => "EQ"
  | .notEqual => "NOT_EQ1"
  | .lessGreater => "NOT_EQ2"
  | .identifier => "IDENTIFIER"
  | .number => "NUMERIC_LITERAL"
  | .parameter => "BIND_PARAMETER"
  | .string => "STRING_LITERAL"
  | .blob => "BLOB_LITERAL"
  | .lineComment => "SINGLE_LINE_COMMENT"
  | .blockComment => "MULTILINE_COMMENT"
  | .blank => "SPACES"
  | .stray => "UNEXPECTED_CHAR"
  | k => (k.spelling.getD "") ++ "_"

/-- How a kind is listed among expected tokens: its text in quotes, or else its name. -/
def listed (k : Kind) : String :=
  match k with
  | .eof => "<EOF>"
  | k => match k.spelling with
    | some written => "'" ++ written ++ "'"
    | none => k.name

/-- Comments and blanks are read past by the grammar. -/
def isHidden : Kind → Bool
  | .lineComment | .blockComment | .blank => true
  | _ => false

end Kind

end PlanCache
