/-
# Receive loops

A receiver keeps the unread end of a stream.  Each time a chunk arrives it runs
a loop over the items at the front (`Receive`), handing every item to a
handler, until more input is needed, the input is in error, the handler fails,
or an item that makes it pause has been handled.  `Feed` is a whole connection:
the chunks one after the other, up to the first failure.

What a run handles is a reading of the stream (`Feed.parses`).  It is the whole
reading when nothing pauses the loop (`Feed.eq_of_smooth`), and also when no
item follows one that pauses it (`Feed.settled`); a stream delivered symbol by
symbol is always read to the end (`Feed.settled_of_singletons`), one delivered
at once is read to the first pause and no further (`Receive.pause_last`).
-/

import BearRpc.Theory.PrefixGrammar

namespace BearRpc
namespace Theory

open PrefixGrammar

variable {α ι σ ξ : Type*}

/-- A grammar, the items after which the loop is left, and the handler: the
state after an item and the failure it raised, if any. -/
structure Receiver (α ι σ ξ : Type*) where
  grammar : PrefixGrammar α ι ξ
  pause : ι → Prop
  handle : ι → σ → σ × Option ξ

namespace Receiver

variable (R : Receiver α ι σ ξ)

/-- One run of the loop on the unread symbols `s` in state `x`: it handles the
items `is`, leaves the symbols `r` and the state `y`, and ends normally
(`none`) or in failure. -/
inductive Receive : List α → σ → List ι → List α → σ → Option ξ → Prop
  | more {s x} : R.grammar.front s = .more → Receive s x [] s x none
  | bad {s x n e} : R.grammar.front s = .bad n e → Receive s x [] (s.drop n) x (some e)
  | fail {s x n i y e} : R.grammar.front s = .item n i → R.handle i x = (y, some e) →
      Receive s x [i] (s.drop n) y (some e)
  | pause {s x n i y} : R.grammar.front s = .item n i → R.handle i x = (y, none) →
      R.pause i → Receive s x [i] (s.drop n) y none
  | next {s x n i y is r z o} : R.grammar.front s = .item n i → R.handle i x = (y, none) →
      ¬ R.pause i → Receive (s.drop n) y is r z o → Receive s x (i :: is) r z o

/-- The chunks of a connection, each appended to what is unread, up to the
first failure. -/
inductive Feed : List α → σ → List (List α) → List ι → List α → σ → Option ξ → Prop
  | nil (r : List α) (x : σ) : Feed r x [] [] r x none
  | fail {r x c cs is r' y e} : Receive R (r ++ c) x is r' y (some e) →
      Feed r x (c :: cs) is r' y (some e)
  | cons {r x c cs is r' y js r'' z o} : Receive R (r ++ c) x is r' y none →
      Feed r' y cs js r'' z o → Feed r x (c :: cs) (is ++ js) r'' z o

variable {R} {s r r' : List α} {x y : σ} {is : List ι} {o : Option ξ} {e : ξ}
  {cs ds : List (List α)}

/-- How a run of the loop ends. -/
theorem Receive.ending (h : R.Receive s x is r y o) : ∃ r', Parses R.grammar s is r' ∧
    ((o = none ∧ r = r' ∧ (R.grammar.front r' = .more ∨ ∃ js i, is = js ++ [i] ∧ R.pause i)) ∨
      (∃ n e, o = some e ∧ R.grammar.front r' = .bad n e ∧ r = r'.drop n) ∨
      ∃ js i z e, o = some e ∧ r = r' ∧ is = js ++ [i] ∧ R.handle i z = (y, some e)) := by
  induction h with
  | @more s x hm => exact ⟨s, .nil s, .inl ⟨rfl, rfl, .inl hm⟩⟩
  | @bad s x n e hb => exact ⟨s, .nil s, .inr (.inl ⟨n, e, rfl, hb, rfl⟩)⟩
  | @fail s x n i y e hi hh => exact ⟨_, .single hi, .inr (.inr ⟨[], i, x, e, rfl, rfl, rfl, hh⟩)⟩
  | @pause s x n i y hi hh hp => exact ⟨_, .single hi, .inl ⟨rfl, rfl, .inr ⟨[], i, rfl, hp⟩⟩⟩
  | @next s x n i y is r z o hi hh hp _ ih =>
    obtain ⟨r', hr', hend⟩ := ih
    refine ⟨r', .cons hi hr', ?_⟩
    rcases hend with ⟨ho, hr, hm | ⟨js, j, rfl, hj⟩⟩ | hbad | ⟨js, j, w, e, ho, hr, rfl, hj⟩
    · exact .inl ⟨ho, hr, .inl hm⟩
    · exact .inl ⟨ho, hr, .inr ⟨i :: js, j, rfl, hj⟩⟩
    · exact .inr (.inl hbad)
    · exact .inr (.inr ⟨i :: js, j, w, e, ho, hr, rfl, hj⟩)

/-- A run that ends normally reads the items it handles, and stops for want of
input or because the last item made it pause. -/
theorem Receive.parses (h : R.Receive s x is r y none) : Parses R.grammar s is r ∧
    (R.grammar.front r = .more ∨ ∃ js i, is = js ++ [i] ∧ R.pause i) := by
  obtain ⟨r', hp, ⟨-, rfl, hend⟩ | ⟨n, e, ho, -⟩ | ⟨js, i, z, e, ho, -⟩⟩ := h.ending
  · exact ⟨hp, hend⟩
  · cases ho
  · cases ho

/-- **Only the last item handled may make the loop pause**: behind it, the loop takes
nothing more from the buffer. -/
theorem Receive.pause_last (h : R.Receive s x is r y o) {js ks : List ι} {i : ι}
    (his : is = js ++ i :: ks) (hp : R.pause i) : ks = [] := by
  induction h generalizing js with
  | more => simp at his
  | bad => simp at his
  | fail => cases js <;> simp_all
  | pause => cases js <;> simp_all
  | next hi hh hn _ ih =>
    cases js with
    | nil =>
      obtain ⟨rfl, rfl⟩ := List.cons.inj his
      exact absurd hp hn
    | cons j js => exact ih (List.cons.inj his).2

/-- **A run goes no further than the first item that makes it pause**, whatever has arrived
behind it. -/
theorem Receive.prefix_of_pause (h : R.Receive s x is r y o) {js ks : List ι} {i : ι}
    {q : List α} (hs : Parses R.grammar s (js ++ i :: ks) q) (hp : R.pause i) :
    is <+: js ++ [i] := by
  obtain ⟨m, hm, -⟩ := h.ending
  rw [List.append_cons] at hs
  obtain ⟨m', hm', -⟩ := hs.of_append
  rcases hm.comparable hm' with hpre | ⟨ls, rfl⟩
  · exact hpre
  · have hls : ls = [] := h.pause_last (List.append_cons js i ls).symm hp
    exact ⟨[], by simp [hls]⟩

/-- **A run that pauses leaves what follows unread**: there are items behind the pause, so
that the rest is not one that the next chunk has to complete. -/
theorem Receive.not_settled (h : R.Receive s x is r y none) {js ks : List ι} {i : ι} {q : List α}
    (hs : Parses R.grammar s (js ++ i :: ks) q) (hp : R.pause i) (hks : ks ≠ []) :
    ¬ R.grammar.Settled r := by
  intro hr
  obtain ⟨ls, hls, -⟩ := hs.continues h.parses.1 hr
  rw [List.append_assoc, List.cons_append] at hls
  exact hks (List.append_eq_nil_iff.1 (h.pause_last hls hp)).1

/-- A run that ends normally had no failure in any item it handled. -/
theorem Receive.handled (h : R.Receive s x is r y none) :
    y = is.foldl (fun z i => (R.handle i z).1) x ∧ ∀ i ∈ is, ∃ z, (R.handle i z).2 = none := by
  generalize ho : (none : Option ξ) = o at h
  induction h with
  | more => exact ⟨rfl, by simp⟩
  | bad => cases ho
  | fail => cases ho
  | @pause s x n i y hi hh hp =>
    refine ⟨by simp [hh], fun j hj => ⟨x, ?_⟩⟩
    rw [List.mem_singleton.1 hj, hh]
  | @next s x n i y is r z o hi hh hp _ ih =>
    subst ho
    obtain ⟨hz, hall⟩ := ih rfl
    refine ⟨by rw [List.foldl_cons, hh]; exact hz, fun j hj => ?_⟩
    rcases List.mem_cons.1 hj with rfl | hj
    · exact ⟨x, by rw [hh]⟩
    · exact hall j hj

/-- A run on a stream that waits for more does nothing. -/
theorem Receive.of_more (h : R.Receive s x is r y o) (hm : R.grammar.front s = .more) :
    is = [] ∧ r = s ∧ y = x ∧ o = none := by
  cases h with
  | more => exact ⟨rfl, rfl, rfl, rfl⟩
  | bad h | fail h | pause h | next h =>
    rw [hm] at h
    cases h

/-- A run on a stream in error does nothing but fail. -/
theorem Receive.of_bad {n : ℕ} (h : R.Receive s x is r y o) (hb : R.grammar.front s = .bad n e) :
    o = some e ∧ y = x := by
  cases h with
  | bad h =>
    rw [hb] at h
    cases h
    exact ⟨rfl, rfl⟩
  | more h | fail h | pause h | next h =>
    rw [hb] at h
    cases h

/-- A run on a stream with an item at its front handles the item, and goes on
behind it unless the handler fails. -/
theorem Receive.of_item {n : ℕ} {i : ι} (h : R.Receive s x is r y o)
    (hi : R.grammar.front s = .item n i) (hp : ¬ R.pause i) :
    (∃ e, o = some e ∧ R.handle i x = (y, some e)) ∨
      ∃ z js, R.handle i x = (z, none) ∧ R.Receive (s.drop n) z js r y o := by
  cases h with
  | more h | bad h =>
    rw [hi] at h
    cases h
  | fail h hh =>
    rw [hi] at h
    cases h
    exact .inl ⟨_, rfl, hh⟩
  | pause h hh hpause =>
    rw [hi] at h
    cases h
    exact absurd hpause hp
  | next h hh _ hrest =>
    rw [hi] at h
    cases h
    exact .inr ⟨_, _, hh, hrest⟩

/-- A run on a stream of one item. -/
theorem Receive.of_single {n : ℕ} {i : ι} (h : R.Receive s x is r y o)
    (hs : R.grammar.front s = .item n i) (hm : R.grammar.front (s.drop n) = .more) :
    is = [i] ∧ r = s.drop n ∧ R.handle i x = (y, o) := by
  cases h with
  | more h | bad h =>
    rw [hs] at h
    cases h
  | fail h hh | pause h hh =>
    rw [hs] at h
    cases h
    exact ⟨rfl, rfl, hh⟩
  | next h hh _ hrest =>
    rw [hs] at h
    cases h
    obtain ⟨rfl, rfl, rfl, rfl⟩ := hrest.of_more hm
    exact ⟨rfl, rfl, hh⟩

/-- **What every handler preserves holds after a run**; a run that fails ends in
what the failing handler, or the error of the stream, makes of it. -/
theorem Receive.preserves {P : σ → Prop} {E : ξ → σ → Prop} (h : R.Receive s x is r y o)
    (hx : P x) (hok : ∀ i x y, P x → R.handle i x = (y, none) → P y)
    (hfail : ∀ i x y e, P x → R.handle i x = (y, some e) → E e y)
    (hbad : ∀ s x n e, P x → R.grammar.front s = .bad n e → E e x) :
    (o = none → P y) ∧ ∀ e, o = some e → E e y := by
  induction h with
  | more => exact ⟨fun _ => hx, nofun⟩
  | @bad s x n e hb => exact ⟨nofun, fun _ he => by cases he; exact hbad s x n e hx hb⟩
  | @fail s x n i y e _ hh => exact ⟨nofun, fun _ he => by cases he; exact hfail i x y e hx hh⟩
  | @pause s x n i y _ hh => exact ⟨fun _ => hok i x y hx hh, nofun⟩
  | @next s x n i y is r z o _ hh _ _ ih => exact ih (hok i x y hx hh)

/-- **A run on what has arrived of a stream.**  The stream `s ++ q` reads as the
items `js`, none of which makes the loop pause, and `s` has arrived.  Each item
that is handled takes `J` one item further, or fails in `E`: then the run fails
in `E`, or it has handled the first of `js`, and the others are to come. -/
theorem Receive.arrived {J : List ι → σ → Prop} {E : ξ → σ → Prop} (h : R.Receive s x is r y o)
    {pre js : List ι} {q : List α} (hnil : R.grammar.front [] = .more)
    (hs : Parses R.grammar (s ++ q) js []) (hp : ∀ i ∈ js, ¬ R.pause i) (hx : J pre x)
    (hJ : ∀ is i ks x y o, pre ++ js = is ++ i :: ks → J is x → R.handle i x = (y, o) →
      (o = none → J (is ++ [i]) y) ∧ ∀ e, o = some e → E e y) :
    (∃ e, o = some e ∧ E e y) ∨ o = none ∧ ∃ ks, js = is ++ ks ∧ J (pre ++ is) y ∧
      Parses R.grammar (r ++ q) ks [] ∧ R.grammar.front r = .more := by
  induction h generalizing pre js with
  | @more s x hm => exact .inr ⟨rfl, js, rfl, by rwa [List.append_nil], hs, hm⟩
  | @bad s x n e hb =>
    have hb' := R.grammar.bad_append q hb
    generalize hsq : s ++ q = t at hs hb'
    generalize hr : ([] : List α) = r at hs
    cases hs with
    | nil =>
      rw [← hr, hnil] at hb'
      cases hb'
    | cons hi _ =>
      rw [hb'] at hi
      cases hi
  | @fail s x n i y e hi hh =>
    obtain ⟨ks, rfl, -⟩ := hs.of_front (R.grammar.item_append q hi)
    exact .inl ⟨e, rfl, (hJ pre i ks x y _ rfl hx hh).2 e rfl⟩
  | @pause s x n i y hi hh hpi =>
    obtain ⟨ks, rfl, -⟩ := hs.of_front (R.grammar.item_append q hi)
    exact absurd hpi (hp i (List.mem_cons_self ..))
  | @next s x n i y is r z o hi hh _ _ ih =>
    obtain ⟨ks, rfl, hrest⟩ := hs.of_front (R.grammar.item_append q hi)
    rw [List.drop_append_of_le_length (R.grammar.item_le hi)] at hrest
    have hy := (hJ pre i ks x y _ rfl hx hh).1 rfl
    rw [← List.singleton_append, ← List.append_assoc] at hJ
    rcases ih hrest (fun j hj => hp j (List.mem_cons_of_mem _ hj)) hy hJ with
      hfail | ⟨ho, ls, rfl, hz, hpar, hm⟩
    · exact .inl hfail
    · exact .inr ⟨ho, ls, rfl, by rwa [List.append_assoc] at hz, hpar, hm⟩

/-- **What a connection has handled is a reading of what it was sent**: the items of all
runs, one after the other, with what is left in the buffer. -/
theorem Feed.parses (h : R.Feed r x cs is r' y none) :
    Parses R.grammar (r ++ cs.flatten) is r' := by
  generalize ho : (none : Option ξ) = o at h
  induction h with
  | nil r x => simpa using .nil r
  | fail => cases ho
  | @cons r x c cs is r' y js r'' z o hr _ ih =>
    have h₁ := hr.parses.1.append cs.flatten
    rw [List.flatten_cons, ← List.append_assoc]
    exact h₁.trans (ih ho)

theorem Feed.handled (h : R.Feed r x cs is r' y none) :
    y = is.foldl (fun z i => (R.handle i z).1) x ∧ ∀ i ∈ is, ∃ z, (R.handle i z).2 = none := by
  generalize ho : (none : Option ξ) = o at h
  induction h with
  | nil r x => exact ⟨rfl, by simp⟩
  | fail => cases ho
  | @cons r x c cs is r' y js r'' z o hr _ ih =>
    subst ho
    obtain ⟨rfl, hall⟩ := hr.handled
    obtain ⟨rfl, hall'⟩ := ih rfl
    refine ⟨by rw [List.foldl_append], fun i hi => ?_⟩
    rcases List.mem_append.1 hi with hi | hi
    · exact hall i hi
    · exact hall' i hi

/-- A connection that has not failed waits for input or has just paused. -/
theorem Feed.settled_or_pause (hr : R.grammar.Settled r) (h : R.Feed r x cs is r' y none) :
    R.grammar.Settled r' ∨ ∃ i ∈ is, R.pause i := by
  generalize ho : (none : Option ξ) = o at h
  induction h with
  | nil r x => exact .inl hr
  | fail => cases ho
  | @cons r x c cs is r' y js r'' z o hrec _ ih =>
    rcases hrec.parses.2 with hm | ⟨ks, i, rfl, hp⟩
    · rcases ih (settled_of_more hm) ho with h | ⟨i, hi, hp⟩
      · exact .inl h
      · exact .inr ⟨i, List.mem_append_right _ hi, hp⟩
    · exact .inr ⟨i, by simp, hp⟩

/-- No item of the stream follows one that makes the loop pause. -/
def PausesLast (R : Receiver α ι σ ξ) (s : List α) : Prop :=
  ∀ is i js r, Parses R.grammar s (is ++ i :: js) r → R.pause i → js = []

theorem PausesLast.rest (h : R.PausesLast s) (hs : Parses R.grammar s is r) : R.PausesLast r :=
  fun js i ks r' hr hp => h (is ++ js) i ks r' (by simpa using hs.trans hr) hp

theorem PausesLast.of_append {t : List α} (h : R.PausesLast (s ++ t)) : R.PausesLast s :=
  fun is i js _ hs hp => h is i js _ (hs.append t) hp

/-- A connection of one chunk is one run of the loop. -/
theorem Feed.receive {c : List α} (h : R.Feed r x [c] is r' y none) :
    R.Receive (r ++ c) x is r' y none := by
  cases h with
  | cons hrec hnil =>
    cases hnil
    rwa [List.append_nil]

/-- **A connection whose pauses come last leaves no item unread**, after every chunk: what
is in the buffer is the beginning of an item, or nothing. -/
theorem Feed.settled (hs : R.PausesLast (r ++ cs.flatten)) (hr : R.grammar.Settled r)
    (h : R.Feed r x cs is r' y none) : R.grammar.Settled r' := by
  generalize ho : (none : Option ξ) = o at h
  induction h with
  | nil r x => exact hr
  | fail => cases ho
  | @cons r x c cs is r' y js r'' z o hrec _ ih =>
    rw [List.flatten_cons, ← List.append_assoc] at hs
    obtain ⟨hp, hend⟩ := hrec.parses
    refine ih (hs.rest (hp.append cs.flatten)) ?_ ho
    rcases hend with hm | ⟨ks, i, rfl, hi⟩
    · exact settled_of_more hm
    · intro n j hj
      have := hs ks i [j] _ (by simpa using (hp.trans (.single hj)).append cs.flatten) hi
      cases this

/-- **A connection fails only on an item or an error of its stream.**  If the
whole stream reads as the items `js` and then waits for more, and no handler of
one of these fails, no cut of the stream makes it fail. -/
theorem Feed.returns {js : List ι} {q : List α} (h : R.Feed r x cs is r' y o)
    (hjs : Parses R.grammar (r ++ cs.flatten) js q) (hq : R.grammar.front q = .more)
    (hh : ∀ i ∈ js, ∀ z, (R.handle i z).2 = none) : o = none := by
  have hqs : R.grammar.Settled q := settled_of_more hq
  induction h generalizing js with
  | nil r x => rfl
  | @fail r x c cs is r' y e hrec =>
    rw [List.flatten_cons, ← List.append_assoc] at hjs
    obtain ⟨m, hm, ⟨ho, -⟩ | ⟨n, e', -, hb, -⟩ | ⟨ks, i, z, e', -, -, rfl, hfail⟩⟩ := hrec.ending
    · cases ho
    · obtain ⟨ks, rfl, hks⟩ := (hm.append cs.flatten).continues hjs hqs
      have hb' := R.grammar.bad_append cs.flatten hb
      cases hks with
      | nil => rw [hb'] at hq; cases hq
      | cons hi _ => rw [hb'] at hi; cases hi
    · obtain ⟨ls, rfl, -⟩ := (hm.append cs.flatten).continues hjs hqs
      have hnone := hh i (by simp) z
      rw [hfail] at hnone
      cases hnone
  | @cons r x c cs is r' y ks r'' z o hrec _ ih =>
    rw [List.flatten_cons, ← List.append_assoc] at hjs
    obtain ⟨ls, rfl, hls⟩ := (hrec.parses.1.append cs.flatten).continues hjs hqs
    exact ih hls fun i hi => hh i (List.mem_append_right _ hi)

/-- **Nothing pauses, nothing fails: the connection reads everything**, however the stream
is cut: the items are those of the one reading there is. -/
theorem Feed.eq_of_smooth {js : List ι} {q : List α} (h : R.Feed r x cs is r' y o)
    (hr : R.grammar.Settled r) (hjs : Parses R.grammar (r ++ cs.flatten) js q)
    (hq : R.grammar.front q = .more) (hp : ∀ i ∈ js, ¬ R.pause i)
    (hh : ∀ i ∈ js, ∀ z, (R.handle i z).2 = none) : o = none ∧ is = js ∧ r' = q := by
  have hqs : R.grammar.Settled q := settled_of_more hq
  obtain rfl := h.returns hjs hq hh
  obtain ⟨ks, rfl, -⟩ := h.parses.continues hjs hqs
  rcases h.settled_or_pause hr with hr' | ⟨i, hi, hpi⟩
  · exact ⟨rfl, h.parses.unique hjs hr' hqs⟩
  · exact absurd hpi (hp i (List.mem_append_left _ hi))

/-- One symbol after a settled rest is read at once. -/
theorem Receive.settled_of_singleton {a : α} (hr : R.grammar.Settled r)
    (h : R.Receive (r ++ [a]) x is r' y none) : r' = [] ∨ R.grammar.front r' = .more := by
  cases h with
  | more hm => exact .inr hm
  | pause hi _ _ =>
    rw [length_of_front_concat hr hi, List.drop_length]
    exact .inl rfl
  | next hi _ _ h =>
    rw [length_of_front_concat hr hi, List.drop_length] at h
    exact .inl (List.suffix_nil.1 h.parses.1.suffix)

/-- **Symbol by symbol, a stream is read to the end**: with each chunk a single one, there
is never an item behind another. -/
theorem Feed.settled_of_singletons (hr : r = [] ∨ R.grammar.front r = .more)
    (h : R.Feed r x (s.map fun a => [a]) is r' y none) :
    r' = [] ∨ R.grammar.front r' = .more := by
  induction s generalizing r x is with
  | nil => cases h; exact hr
  | cons a s ih =>
    have hset : R.grammar.Settled r := hr.elim (fun h => h ▸ settled_nil) settled_of_more
    cases h with
    | cons hrec hfeed => exact ih (hrec.settled_of_singleton hset) hfeed

end Receiver
end Theory
end BearRpc
