import Mathlib.Order.Basic

/-! # Programs that may stop

A program returns a value or stops for some reason. A specification says what holds of the value
and for which reasons the program may stop.
-/

namespace SourceCompanion

variable {ε α β : Type} {reason reason' : ε → Prop} {post post' : α → Prop}

/-- The program returns a value with a property, or stops for an admitted reason. -/
def Ends (reason : ε → Prop) (post : α → Prop) : Except ε α → Prop
  | .ok a => post a
  | .error e => reason e

namespace Ends

theorem imp {r : Except ε α} (h : Ends reason post r) (hreason : ∀ e, reason e → reason' e)
    (hpost : ∀ a, post a → post' a) : Ends reason' post' r := by
  cases r with
  | ok a => exact hpost a h
  | error e => exact hreason e h

theorem imp_reason {r : Except ε α} (h : Ends reason post r)
    (hreason : ∀ e, reason e → reason' e) : Ends reason' post r :=
  h.imp hreason fun _ ha => ha

theorem imp_post {r : Except ε α} (h : Ends reason post r) (hpost : ∀ a, post a → post' a) :
    Ends reason post' r :=
  h.imp (fun _ he => he) hpost

theorem bind {r : Except ε α} {f : α → Except ε β} {post' : β → Prop} (h : Ends reason post r)
    (hf : ∀ a, post a → Ends reason post' (f a)) : Ends reason post' (r >>= f) := by
  cases r with
  | ok a => exact hf a h
  | error e => exact h

theorem bind_of_forall (hreason : ∀ e, reason e) {r : Except ε α} {f : α → Except ε β}
    {post : β → Prop} (hf : ∀ a, Ends reason post (f a)) : Ends reason post (r >>= f) := by
  cases r with
  | ok a => exact hf a
  | error e => exact hreason e

end Ends

end SourceCompanion
