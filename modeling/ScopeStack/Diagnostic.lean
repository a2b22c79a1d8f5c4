import ScopeStack.Span

/-!
# Diagnostics

Every error of the library has a numeric code, and the hundreds digit of the
code says which stage reports it. A diagnostic is the form in which errors
leave the library: code, stage, message and, where it is known, the place in
the source.
-/

namespace ScopeStack

/-- The stage that reports an error. -/
inductive Stage where
  | layout
  | codegen
  | load
  | runtime
  | internal
deriving DecidableEq, Repr

/-- The name of a stage in messages. -/
def Stage.name : Stage → String
  | .layout => "layout"
  | .codegen => "codegen"
  | .load => "load"
  | .runtime => "runtime"
  | .internal => "internal"

/-- The number of an error. -/
structure DiagnosticCode where
  number : Nat
deriving DecidableEq, Repr

namespace DiagnosticCode

/-- The stage to which a code belongs. -/
def stage (code : DiagnosticCode) : Stage :=
  match code.number / 100 with
  | 1 => .layout
  | 2 => .codegen
  | 3 => .load
  | 4 => .runtime
  | _ => .internal

/-- The code as it is shown. -/
def text (code : DiagnosticCode) : String := "E" ++ toString code.number

end DiagnosticCode

/-- An error as it is reported. -/
structure Diagnostic where
  code : DiagnosticCode
  stage : Stage
  message : String
  span : Option Span
deriving DecidableEq, Repr

namespace Diagnostic

/-- A diagnostic of the stage that its code belongs to. -/
def ofCode (code : DiagnosticCode) (message : String) (span : Option Span) : Diagnostic :=
  ⟨code, code.stage, message, span⟩

/-- The diagnostic on one line: place, code, stage and message. -/
def text (diagnostic : Diagnostic) : String :=
  let place :=
    match diagnostic.span with
    | some span => span.text ++ ": "
    | none => ""
  place ++ diagnostic.code.text ++ " [" ++ diagnostic.stage.name ++ "] " ++ diagnostic.message

end Diagnostic

end ScopeStack
