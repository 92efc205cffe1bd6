import ScriptFront.Diagnostic

/-! What a run tells about itself, as a list of events in the order they happened. -/

namespace ScriptFront

inductive Level where
  | trace
  | debug
  | info
  | error
deriving DecidableEq, Repr, Inhabited

inductive Event where
  | scanned (token : Token)
  | parserCreated (file : String)
  | recorded (diagnostic : Diagnostic)
  | parsed (statements diagnostics : Nat)
  | loading (path : String)
  | loopStarted (scripts : String)
  | loopFinished
  | loopStopped (reason : String)
deriving DecidableEq, Repr, Inhabited

abbrev Journal := Array Event

def Level.name : Level → String
  | trace => "TRACE"
  | debug => "DEBUG"
  | info => "INFO"
  | error => "ERROR"

namespace Event

def level : Event → Level
  | scanned _ => .trace
  | parserCreated _ | recorded _ | parsed _ _ | loading _ => .debug
  | loopStarted _ | loopFinished => .info
  | loopStopped _ => .error

def place (p : Position) : String := p.file ++ ":" ++ toString p.offset.toNat

def message : Event → String
  | scanned token => place token.position ++ " " ++ token.display
  | parserCreated file => "Parser created for " ++ file
  | recorded diagnostic => place diagnostic.position ++ " " ++ diagnostic.message
  | parsed statements diagnostics =>
    "Parsed " ++ toString statements ++ " statements with " ++ toString diagnostics ++ " errors"
  | loading path => "Loading script " ++ path
  | loopStarted scripts => "Read-loop started, scripts from " ++ scripts
  | loopFinished => "Read-loop finished"
  | loopStopped reason => "Read-loop stopped: " ++ reason

end Event

end ScriptFront
