/-
# Work that gives notices

The work of a command gives notices on the way and ends with a result or an error.  What was told
before an error stays told.
-/
import Provenance.Tool.Error
import Provenance.Tool.Notice

namespace Provenance

/-- The notices of some work, in order, and how it ended. -/
structure Logged (α : Type) where
  notices : List Notice
  outcome : Except ToolError α

namespace Logged

/-- Work that tells nothing. -/
def quiet {α : Type} (outcome : Except ToolError α) : Logged α := ⟨[], outcome⟩

/-- Only tells. -/
def tell (notices : List Notice) : Logged Unit := ⟨notices, .ok ()⟩

/-- Goes on with the result, if there is one. -/
def andThen {α β : Type} (x : Logged α) (f : α → Logged β) : Logged β :=
  match x.outcome with
  | .error e => ⟨x.notices, .error e⟩
  | .ok a =>
    let y := f a
    ⟨x.notices ++ y.notices, y.outcome⟩

instance : Monad Logged where
  pure a := quiet (.ok a)
  bind := andThen

/-- Notices do not change how work ends. -/
theorem outcome_andThen {α β : Type} (x : Logged α) (f : α → Logged β) :
    (x.andThen f).outcome = x.outcome.bind fun a => (f a).outcome := by
  obtain ⟨notices, outcome⟩ := x
  cases outcome <;> rfl

/-- What goes on to a result had one to go on with. -/
theorem of_bind {α β : Type} {x : Logged α} {f : α → Logged β} {b : β}
    (h : (x >>= f).outcome = .ok b) : ∃ a, x.outcome = .ok a ∧ (f a).outcome = .ok b := by
  change (x.andThen f).outcome = .ok b at h
  rw [outcome_andThen] at h
  cases hx : x.outcome with
  | error e =>
    rw [hx] at h
    cases h
  | ok a =>
    rw [hx] at h
    exact ⟨a, rfl, h⟩

end Logged

end Provenance
