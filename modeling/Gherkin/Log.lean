/-!
Log records. Every part of the library that keeps a log has events of its own, and each event is
written as one record.
-/
namespace Gherkin

inductive LogLevel
  | trace | debug | warn
  deriving DecidableEq

def LogLevel.name : LogLevel → String
  | .trace => "TRACE"
  | .debug => "DEBUG"
  | .warn => "WARN"

structure LogRecord where
  level : LogLevel
  message : String
  deriving DecidableEq

def LogRecord.line (record : LogRecord) : String := s!"{record.level.name} {record.message}"

end Gherkin
