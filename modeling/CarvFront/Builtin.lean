import CarvFront.Table
import CarvFront.Ty.Basic

/-! The functions and modules that every program can use. -/
namespace CarvFront.Builtin

/-- Functions that take any number of arguments. They do not take their arguments away. -/
def variadic : List String :=
  ["print", "println", "exec", "exec_output", "substr", "exit", "panic"]

def isVariadic (name : String) : Bool :=
  variadic.contains name

private def fn (name : String) (params : List Ty) (ret : Ty) : String × FnTy :=
  (name, ⟨params, ret⟩)

def inputOutput : List (String × FnTy) :=
  [fn "print" [.any] .void,
   fn "println" [.any] .void,
   fn "read_file" [.string] .string,
   fn "write_file" [.string, .string] .bool,
   fn "file_exists" [.string] .bool]

def conversions : List (String × FnTy) :=
  [fn "len" [.any] .int,
   fn "str" [.any] .string,
   fn "int" [.any] .int,
   fn "float" [.any] .float,
   fn "type_of" [.any] .string,
   fn "parse_int" [.string] .int,
   fn "parse_float" [.string] .float,
   fn "ord" [.char] .int,
   fn "chr" [.int] .char]

def strings : List (String × FnTy) :=
  [fn "upper" [.string] .string,
   fn "lower" [.string] .string,
   fn "trim" [.string] .string,
   fn "split" [.string, .string] (.array .string),
   fn "join" [.array .string, .string] .string,
   fn "contains" [.any, .any] .bool,
   fn "replace" [.string, .string, .string] .string,
   fn "starts_with" [.string, .string] .bool,
   fn "ends_with" [.string, .string] .bool,
   fn "index_of" [.string, .string] .int,
   fn "char_at" [.string, .int] .char,
   fn "substr" [.string, .int, .int] .string]

def collections : List (String × FnTy) :=
  [fn "push" [.array .any, .any] .void,
   fn "pop" [.array .any] .any,
   fn "keys" [.map .any .any] (.array .any),
   fn "values" [.map .any .any] (.array .any),
   fn "has_key" [.map .any .any, .any] .bool,
   fn "delete" [.map .any .any, .any] .void,
   fn "range" [.int, .int] (.array .int)]

def mathematics : List (String × FnTy) :=
  [fn "abs" [.float] .float,
   fn "min" [.float, .float] .float,
   fn "max" [.float, .float] .float,
   fn "sqrt" [.float] .float]

def system : List (String × FnTy) :=
  [fn "getenv" [.string] .string,
   fn "setenv" [.string, .string] .void,
   fn "args" [] (.array .string),
   fn "time_now" [] .int,
   fn "sleep" [.int] .void,
   fn "exec" [.string] .int,
   fn "exec_output" [.string] .string,
   fn "exit" [.int] .void,
   fn "panic" [.string] .void]

/-- The functions that are there without an import. -/
def globals : Table FnTy :=
  .ofList (inputOutput ++ conversions ++ strings ++ collections ++ mathematics ++ system)

/-- Blocking connections, by number. -/
def net : Table FnTy :=
  .ofList
    [fn "tcp_listen" [.string, .int] .int,
     fn "tcp_accept" [.int] .int,
     fn "tcp_connect" [.string, .int] .int,
     fn "tcp_read" [.int, .int] .string,
     fn "tcp_write" [.int, .string] .int,
     fn "tcp_close" [.int] .void]

/-- Requests to the web and a small server. -/
def web : Table FnTy :=
  .ofList
    [fn "get" [.string] (.future .string),
     fn "serve" [.int] .void,
     fn "route" [.string, .fn [.any] .any] .void,
     fn "json" [.any] .string,
     fn "response" [.int, .string] .any]

/-- The members of a module, if it is built in. -/
def module? : String → Option (Table FnTy)
  | "net" => some net
  | "web" => some web
  | _ => none

def hasModule (path : String) : Bool :=
  (module? path).isSome

/-- The members of a module in the order of their names. -/
def members (path : String) : List (String × FnTy) :=
  ((module? path).map Table.entries).getD []

/-- A member of a module. -/
def member? (path name : String) : Option FnTy :=
  (module? path).bind (·.find? name)

end CarvFront.Builtin
