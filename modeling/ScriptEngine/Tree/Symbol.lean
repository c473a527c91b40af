import ScriptEngine.Tree

/-!
How operators and kinds of declarations are spelled.
-/

namespace ScriptEngine

def UnaryOp.symbol : UnaryOp → String
  | .not => "!"
  | .minus => "-"
  | .plus => "+"
  | .typeof => "typeof"
  | .void => "void"
  | .delete => "delete"

def UnaryOp.ofSymbol? (s : String) : Option UnaryOp :=
  [.not, .minus, .plus, .typeof, .void, .delete].find? (·.symbol = s)

def BinaryOp.symbol : BinaryOp → String
  | .add => "+"
  | .sub => "-"
  | .mul => "*"
  | .div => "/"
  | .mod => "%"
  | .lt => "<"
  | .le => "<="
  | .gt => ">"
  | .ge => ">="
  | .eq => "=="
  | .ne => "!="
  | .strictEq => "==="
  | .strictNe => "!=="
  | .instanceOf => "instanceof"
  | .inside => "in"

def BinaryOp.ofSymbol? (s : String) : Option BinaryOp :=
  [.add, .sub, .mul, .div, .mod, .lt, .le, .gt, .ge, .eq, .ne, .strictEq, .strictNe, .instanceOf,
    .inside].find? (·.symbol = s)

def LogicalOp.symbol : LogicalOp → String
  | .and => "&&"
  | .or => "||"
  | .coalesce => "??"

def LogicalOp.ofSymbol? (s : String) : Option LogicalOp :=
  [.and, .or, .coalesce].find? (·.symbol = s)

def AssignOp.symbol : AssignOp → String
  | .plain => "="
  | .add => "+="
  | .sub => "-="
  | .mul => "*="

def AssignOp.ofSymbol? (s : String) : Option AssignOp :=
  [.plain, .add, .sub, .mul].find? (·.symbol = s)

def UpdateOp.symbol : UpdateOp → String
  | .increment => "++"
  | .decrement => "--"

def UpdateOp.ofSymbol? (s : String) : Option UpdateOp :=
  [.increment, .decrement].find? (·.symbol = s)

def VariableKind.keyword : VariableKind → String
  | .var => "var"
  | .let => "let"
  | .const => "const"

def VariableKind.ofKeyword? (s : String) : Option VariableKind :=
  [.var, .let, .const].find? (·.keyword = s)

end ScriptEngine
