/-
The languages that generated names must be fit for, and the words each of them reserves. A
reserved word is never a valid identifier of its dialect, so `Identifier.sanitize` prefixes it.
-/
namespace SchemaInference

/-- The language whose reserved words an identifier has to avoid. -/
inductive Dialect where
  | cpp
  | rust
deriving DecidableEq, Repr, Inhabited

namespace Dialect

def reservedWords : Dialect → List String
  | .cpp =>
    ["alignas", "alignof", "and", "and_eq", "asm", "atomic_cancel", "atomic_commit",
      "atomic_noexcept", "auto", "bitand", "bitor", "bool", "break", "case", "catch", "char",
      "char8_t", "char16_t", "char32_t", "class", "compl", "concept", "const", "consteval",
      "constexpr", "constinit", "co_await", "co_return", "co_yield", "const_cast", "continue",
      "decltype", "default", "delete", "do", "double", "dynamic_cast", "else", "enum", "explicit",
      "export", "extern", "false", "float", "for", "friend", "goto", "if", "import", "inline",
      "int", "long", "module", "mutable", "namespace", "new", "noexcept", "not", "not_eq",
      "nullptr", "operator", "or", "or_eq", "private", "protected", "public", "register",
      "reinterpret_cast", "requires", "return", "short", "signed", "sizeof", "small", "static",
      "static_assert", "static_cast", "struct", "switch", "synchronized", "template", "this",
      "thread_local", "throw", "true", "try", "typedef", "typeid", "typename", "union",
      "unsigned", "using", "virtual", "void", "volatile", "wchar_t", "while", "xor", "xor_eq"]
  | .rust =>
    ["as", "async", "await", "break", "const", "continue", "crate", "dyn", "else", "enum",
      "extern", "false", "fn", "for", "gen", "if", "impl", "in", "let", "loop", "match", "mod",
      "move", "mut", "pub", "ref", "return", "self", "Self", "static", "struct", "super", "trait",
      "true", "try", "type", "unsafe", "use", "where", "while", "abstract", "become", "box", "do",
      "final", "macro", "override", "priv", "typeof", "unsized", "virtual", "yield", "_"]

def isReserved (d : Dialect) (name : String) : Bool := d.reservedWords.contains name

def name : Dialect → String
  | .cpp => "cpp"
  | .rust => "rust"

/-- Names are exact: no other spelling or letter case is understood. -/
def ofName? : String → Option Dialect
  | "cpp" => some .cpp
  | "rust" => some .rust
  | _ => none

end Dialect

end SchemaInference
