/-
# Triples of programs that may fail

`Triple P x Q E`: run in a state of `P`, the program `x` returns in a state of
`Q` or fails in one of `E`.  The rules are those of the two ways to put programs
together that the RPC code uses: one after the other, and once for each element
of a list.
-/

import Mathlib.Data.List.Basic

namespace BearRpc
namespace Theory

variable {ε σ α β : Type}

/-- A result is in `Q` if it is a value and in `E` if it is a failure. -/
def Ends (Q : α → σ → Prop) (E : ε → σ → Prop) : EStateM.Result ε σ α → Prop
  | .ok a s => Q a s
  | .error e s => E e s

/-- Run in a state of `P`, the program ends in `Q` or `E`. -/
def Triple (P : σ → Prop) (x : EStateM ε σ α) (Q : α → σ → Prop) (E : ε → σ → Prop) : Prop :=
  ∀ s, P s → Ends Q E (x s)

variable {P : σ → Prop} {Q : α → σ → Prop} {E E' : ε → σ → Prop} {x : EStateM ε σ α} {s : σ}

/-- What `get` returns. -/
theorem get_run (s : σ) : (get : EStateM ε σ σ) s = .ok s s := rfl

/-- What `modify` leaves. -/
theorem modify_run (f : σ → σ) (s : σ) : (modify f : EStateM ε σ PUnit) s = .ok ⟨⟩ (f s) := rfl

/-- What holds when the program returns. -/
theorem Triple.of_ok {a : α} {t : σ} (h : Triple P x Q E) (hs : P s) (hx : x s = .ok a t) :
    Q a t := by
  have hends := h s hs
  rwa [hx] at hends

/-- What holds when it fails. -/
theorem Triple.of_error {e : ε} {t : σ} (h : Triple P x Q E) (hs : P s)
    (hx : x s = .error e t) : E e t := by
  have hends := h s hs
  rwa [hx] at hends

/-- A failure may be described more loosely. -/
theorem Triple.imp_error (h : Triple P x Q E) (hE : ∀ e s, E e s → E' e s) :
    Triple P x Q E' := by
  intro s hs
  cases hx : x s with
  | ok a t => exact h.of_ok hs hx
  | error e t => exact hE e t (h.of_error hs hx)

/-- One program after the other: what the first ends in is where the second starts, and the
failures of both are described alike. -/
theorem Ends.bind {R : β → σ → Prop} {f : α → EStateM ε σ β} (h : Ends Q E (x s))
    (hf : ∀ a, Triple (Q a) (f a) R E) : Ends R E ((x >>= f) s) := by
  simp only [Bind.bind, EStateM.bind]
  cases hx : x s with
  | ok a t =>
    rw [hx] at h
    exact hf a t h
  | error e t =>
    rw [hx] at h
    exact h

/-- **The rule of sequencing.** The second program needs no more than what the first
promises, and an exception of either is one of the whole. -/
theorem Triple.bind {R : β → σ → Prop} {f : α → EStateM ε σ β} (h : Triple P x Q E)
    (hf : ∀ a, Triple (Q a) (f a) R E) : Triple P (x >>= f) R E :=
  fun s hs => (h s hs).bind hf

/-- **The loop over a list**: what every iteration preserves holds behind it, and an
exception ends it with what that iteration says. -/
theorem Triple.forM {f : β → EStateM ε σ PUnit} {l : List β}
    (h : ∀ b ∈ l, Triple P (f b) (fun _ => P) E) : Triple P (l.forM f) (fun _ => P) E := by
  induction l with
  | nil => exact fun _ h => h
  | cons b l ih =>
    exact (h b List.mem_cons_self).bind fun _ => ih fun c hc => h c (List.mem_cons_of_mem b hc)

end Theory
end BearRpc
