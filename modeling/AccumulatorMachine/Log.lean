import AccumulatorMachine.Text.Blank

/-!
Log events, and the choice of what is logged.
-/
namespace AccumulatorMachine.Log

/-- How severe an event is, from the most severe level to the least. -/
inductive Level where
  | warn
  | debug
  | trace
deriving DecidableEq, Repr

def Level.rank : Level → Nat
  | .warn => 0
  | .debug => 1
  | .trace => 2

/-- An event with its named fields in order. -/
structure Event where
  level : Level
  message : String
  fields : List (String × String)
deriving DecidableEq, Repr

/-- The events at least as severe as `level`. -/
def upTo (level : Level) (events : List Event) : List Event :=
  events.filter fun event => decide (event.level.rank ≤ level.rank)

/-- The directives that choose what is logged: those of the environment if they say anything, else
debug events of both parts when a run is traced, else warnings. -/
def directives (environment : Option String) (traced : Bool) : String :=
  match environment.filter fun text => !Text.isAllBlank text with
  | some text => text
  | none => if traced then "alpha=debug,alpha_lang=debug" else "warn"

end AccumulatorMachine.Log
