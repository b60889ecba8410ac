import FractalShader.Exchange.Messages

/-
  This file saves the pipeline of a session as text and
  loads sessions from such texts.

  Key definitions include:
    * `Session.save`
    * `LoadError`
    * `Session.load`
-/

namespace FractalShader

/- Why a saved text gives no session. -/
inductive LoadError where
  | unreadable
  | failed (why : Failure)
deriving DecidableEq, Repr

/- The text of a load error. -/
def LoadError.message : LoadError → String
  | .unreadable => "Invalid pipeline"
  | .failed why => why.message

namespace Session

/- The text of the pipeline. -/
def save (s : Session) : String :=
  prettyText s.pipeline

/- A session on the pipeline of a text. -/
def load
    (text : String)
    (settings : Settings) : Except LoadError Session :=
  match ofText? text with
  | none => .error .unreadable
  | some (pipeline : Pipeline) =>
      (ofPipeline pipeline settings).mapError .failed

end Session

end FractalShader
