import ScopeStack.Executable
import ScopeStack.Image.Assembly
import ScopeStack.Report

/-!
# From programs to runs

Compiling a program lays it out and assembles its image. What fails on the way
to a result says in which stage it failed.
-/

namespace ScopeStack

/-- Why a program has no result. -/
inductive Failure where
  | layout (error : LayoutError)
  | emission (error : EmissionError)
  | load (error : LoadError)
  | run (fault : Fault)
deriving DecidableEq, Repr

namespace Failure

/-- What went wrong, and in which stage. -/
def message : Failure → String
  | .layout error => "layout: " ++ error.message
  | .emission error => "codegen: " ++ error.message
  | .load error => "load: " ++ error.message
  | .run fault => "runtime: " ++ fault.message

/-- The failure as it is reported. -/
def toDiagnostic : Failure → Diagnostic
  | .layout error => error.toDiagnostic
  | .emission error => error.toDiagnostic
  | .load error => error.toDiagnostic
  | .run fault => fault.toDiagnostic

end Failure

namespace Program

/-- Compile a program; the image comes with the layout it is based on. -/
def compileWithLayout (program : Program) : Except Failure (Layout × Image) := do
  let layout ← (Layout.ofProgram program).mapError .layout
  let image ← (Image.ofProgram program layout).mapError .emission
  return (layout, image)

/-- Compile a program. -/
def compile (program : Program) : Except Failure Image := do
  let (_, image) ← program.compileWithLayout
  return image

/-- The report of compiling a program. -/
def report (program : Program) : Report :=
  match program.compileWithLayout with
  | .ok (layout, image) => Report.ofImage layout image
  | .error failure => Report.failure failure.toDiagnostic

end Program

/-- Load an image. -/
def Image.load (image : Image) (config : Config) : Except Failure Executable :=
  (Executable.load config image.code image.data).mapError .load

/-- Compile a program and load its image. -/
def Program.load (program : Program) (config : Config) : Except Failure Executable := do
  let image ← program.compile
  image.load config

end ScopeStack
