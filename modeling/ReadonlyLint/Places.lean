/-!
Places of a text, from its start to its end. A pattern is matched from its last step to its first:
each step turns the places at which the rest of the pattern matches into those at which the step and
the rest match, so that the work grows with the length of the text times the number of steps.
-/
namespace ReadonlyLint

/-- For each place of a text, the end included, whether it counts. -/
abbrev Places := List Bool

namespace Places

variable {α : Type}

/-- Whether the first place counts. -/
def atStart (places : Places) : Bool := places.headD false

/-- Only the end of the text. -/
def ending : List α → Places
  | [] => [true]
  | _ :: text => false :: ending text

/-- The places one symbol before a place that counts, if the symbol passes the test. -/
def before (test : α → Bool) : List α → Places → Places
  | [], _ => [false]
  | a :: text, places => (test a && atStart places.tail) :: before test text places.tail

/-- The places that count and those before a run of symbols up to one of them, all of which pass the
test. -/
def beforeRun (test : α → Bool) : List α → Places → Places
  | [], places => places
  | a :: text, places =>
    let later := beforeRun test text places.tail
    (atStart places || (test a && atStart later)) :: later

/-- The places before some place that counts and that follows a symbol that passes the test. -/
def beforeAny (test : α → Bool) : List α → Places → Places
  | [], _ => [false]
  | a :: text, places =>
    let later := beforeAny test text places.tail
    ((test a && atStart places.tail) || atStart later) :: later

/-- The places that count in one or the other. -/
def either : Places → Places → Places := List.zipWith (· || ·)

end Places

end ReadonlyLint
