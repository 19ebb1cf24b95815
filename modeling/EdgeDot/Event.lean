import EdgeDot.Text.Basic

/-!
# Events

What is worth telling about a conversion beyond its result: lines that were skipped, tokens that
were ignored, a count that does not fit, and the conversion itself.  Each event has a level, and
a log shows the events up to a level.

* `Event.line`         an event as a line of the log
* `Verbosity.filter`   the events that a log shows
-/

namespace EdgeDot

/-- how much an event matters, the gravest first -/
inductive Level where
  | error
  | warn
  | info
  | debug
  | trace
deriving DecidableEq

namespace Level

def rank : Level → Nat
  | .error => 1
  | .warn => 2
  | .info => 3
  | .debug => 4
  | .trace => 5

def name : Level → Text
  | .error => "ERROR".toList
  | .warn => "WARN".toList
  | .info => "INFO".toList
  | .debug => "DEBUG".toList
  | .trace => "TRACE".toList

end Level

inductive Event where
  /-- the line with this number is empty -/
  | skippingEmptyLine (row : Nat)
  /-- the line with this number goes on behind its edge -/
  | ignoringTokens (row : Nat)
  | countDiffers (declared found : Nat)
  | converted (input output : Text) (edges : Nat)
deriving DecidableEq

namespace Event

def level : Event → Level
  | .skippingEmptyLine _ => .debug
  | .ignoringTokens _ => .debug
  | .countDiffers _ _ => .warn
  | .converted _ _ _ => .info

def message : Event → Text
  | .skippingEmptyLine row => "skipping empty line line=".toList ++ Text.ofNat row
  | .ignoringTokens row =>
    "ignoring tokens after the edge target line=".toList ++ Text.ofNat row
  | .countDiffers declared found =>
    "edge count differs from the declared count declared=".toList ++ Text.ofNat declared ++
      " found=".toList ++ Text.ofNat found
  | .converted input output edges =>
    "converted edge list input=".toList ++ input ++ " output=".toList ++ output ++
      " edges=".toList ++ Text.ofNat edges

/-- an event as a line of the log: its level, then its words -/
def line (e : Event) : Text := e.level.name ++ " ".toList ++ e.message

end Event

/-- the gravity down to which a log shows events; nothing is shown if absent -/
abbrev Verbosity := Option Level

namespace Verbosity

def shows (v : Verbosity) (l : Level) : Bool :=
  match v with
  | none => false
  | some least => l.rank ≤ least.rank

def filter (v : Verbosity) (events : List Event) : List Event :=
  events.filter fun e => v.shows e.level

def ofName? (name : Text) : Option Verbosity :=
  if name = "off".toList then some none
  else if name = "error".toList then some (some .error)
  else if name = "warn".toList then some (some .warn)
  else if name = "info".toList then some (some .info)
  else if name = "debug".toList then some (some .debug)
  else if name = "trace".toList then some (some .trace)
  else none

end Verbosity

end EdgeDot
