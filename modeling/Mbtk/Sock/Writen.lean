import Mathlib.Tactic

namespace Mbtk.Sock

/-- How `write` answers.  It takes no more than it is given. -/
inductive Answer
  | interrupted
  | failed
  | took (count : ℕ)
  deriving DecidableEq

structure Sink where
  answers : List Answer
  received : List UInt8
  deriving DecidableEq

/-- The loop of `sock_writen`, with whether it went on to the end.  It has no result while it waits
for `write`. -/
def writenLoop (received : List UInt8) : List Answer → List UInt8 → Option (Bool × Sink)
  | answers, [] => some (true, ⟨answers, received⟩)
  | [], _ :: _ => none
  | .interrupted :: answers, ptr => writenLoop received answers ptr
  | .failed :: answers, _ => some (false, ⟨answers, received⟩)
  | .took count :: answers, ptr =>
    -- A count of 0 is no interruption.
    if count = 0 then some (false, ⟨answers, received⟩)
    else writenLoop (received ++ ptr.take count) answers (ptr.drop count)

def sockWriten (vptr : List UInt8) : StateT Sink Option ℤ := fun s =>
  (writenLoop s.received s.answers vptr).map fun (ok, s) => (if ok then vptr.length else -1, s)

end Mbtk.Sock
