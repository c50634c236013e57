import Mathlib.Data.List.Basic

/-!
# Announcements in a trace

A trace is a list of events, the newest one last. Some of them restart a section of
the trace, some use what an earlier event of the section has announced. `Follows` says
that the first use of every section comes behind an event that announces it;
`Follows.snoc` is the rule for a trace that grows, and `Begun` the invariant that makes
it hold for any use that is not the first one.
-/

namespace Trace

/-- What the events of a trace are to each other. -/
structure Pattern (α : Type*) where
  restarts : α → Prop
  uses : α → Prop
  announces : α → α → Prop

namespace Pattern

variable {α : Type*} {P : Pattern α} {t os mid : List α} {x u : α}

/-- `mid` is what has come since the last restart, and nothing has been used since. -/
def Since (P : Pattern α) (t mid : List α) : Prop :=
  ∃ pre m, t = pre ++ m :: mid ∧ P.restarts m ∧ ∀ o ∈ mid, ¬P.restarts o ∧ ¬P.uses o

/-- A use of `u` would be the first one of no section, or it has been announced. -/
def Announced (P : Pattern α) (t : List α) (u : α) : Prop :=
  ∀ mid, P.Since t mid → ∃ a ∈ mid, P.announces a u

/-- The first use of every section has been announced in it. -/
def Follows (P : Pattern α) (t : List α) : Prop :=
  ∀ pre u post, t = pre ++ u :: post → P.uses u → P.Announced pre u

/-- The last section has had its first use. -/
def Begun (P : Pattern α) (t : List α) : Prop := ∀ mid, ¬P.Since t mid

/-- A split of a trace with one more event. -/
theorem split_snoc {pre post : List α} (h : t ++ [x] = pre ++ u :: post) :
    (pre = t ∧ u = x ∧ post = []) ∨ ∃ post', post = post' ++ [x] ∧ t = pre ++ u :: post' := by
  rcases List.eq_nil_or_concat post with rfl | ⟨post', y, rfl⟩
  · rcases List.append_inj' h rfl with ⟨hpre, hlast⟩
    exact Or.inl ⟨hpre.symm, (List.singleton_inj.mp hlast).symm, rfl⟩
  · have h' : t ++ [x] = (pre ++ u :: post') ++ [y] := by simpa using h
    rcases List.append_inj' h' rfl with ⟨ht, hlast⟩
    rw [List.singleton_inj] at hlast
    exact Or.inr ⟨post', by rw [hlast, List.concat_eq_append], ht⟩

/-- What has come since the last restart grows, or begins anew. -/
theorem Since.of_snoc (h : P.Since (t ++ [x]) mid) :
    (mid = [] ∧ P.restarts x) ∨
      ∃ mid', mid = mid' ++ [x] ∧ P.Since t mid' ∧ ¬P.restarts x ∧ ¬P.uses x := by
  rcases h with ⟨pre, m, ht, hm, hmid⟩
  rcases split_snoc ht with ⟨-, rfl, rfl⟩ | ⟨mid', rfl, rfl⟩
  · exact Or.inl ⟨rfl, hm⟩
  · have hx := hmid x (by simp)
    have hrest : ∀ o ∈ mid', ¬P.restarts o ∧ ¬P.uses o := by
      intro o ho
      exact hmid o (List.mem_append_left _ ho)
    exact Or.inr ⟨mid', rfl, ⟨pre, m, rfl, hm, hrest⟩, hx⟩

theorem follows_nil : P.Follows [] := by
  intro pre u post h
  simp at h

theorem Begun.snoc (h : P.Begun t) (hx : ¬P.restarts x) : P.Begun (t ++ [x]) := by
  intro mid hmid
  rcases hmid.of_snoc with ⟨-, habs⟩ | ⟨mid', -, hmid', -⟩
  · exact hx habs
  · exact h mid' hmid'

/-- With a use the section has begun. -/
theorem begun_of_use (hx : P.uses x) (hr : ¬P.restarts x) : P.Begun (t ++ [x]) := by
  intro mid hmid
  rcases hmid.of_snoc with ⟨-, habs⟩ | ⟨mid', -, -, -, habs⟩
  · exact hr habs
  · exact habs hx

theorem Begun.append (h : P.Begun t) (hos : ∀ o ∈ os, ¬P.restarts o) : P.Begun (t ++ os) := by
  induction os generalizing t with
  | nil =>
      rw [List.append_nil]
      exact h
  | cons o os ih =>
      have hsnoc := ih (h.snoc (hos o (by simp))) (fun o' ho' => hos o' (by simp [ho']))
      rwa [List.append_assoc] at hsnoc

theorem Begun.announced (h : P.Begun t) : P.Announced t u := by
  intro mid hmid
  exact absurd hmid (h mid)

/-- An announcement has just been made. -/
theorem announced_snoc (hx : P.announces x u) (hr : ¬P.restarts x) :
    P.Announced (t ++ [x]) u := by
  intro mid hmid
  rcases hmid.of_snoc with ⟨-, habs⟩ | ⟨mid', rfl, -⟩
  · exact absurd habs hr
  · exact ⟨x, by simp, hx⟩

/-- One more event: a use has to be announced. -/
theorem Follows.snoc (h : P.Follows t) (hx : P.uses x → P.Announced t x) :
    P.Follows (t ++ [x]) := by
  intro pre u post ht hu
  rcases split_snoc ht with ⟨rfl, rfl, -⟩ | ⟨post', -, rfl⟩
  · exact hx hu
  · exact h pre u post' rfl hu

theorem Follows.append (h : P.Follows t) (hos : ∀ o ∈ os, ¬P.uses o) : P.Follows (t ++ os) := by
  induction os generalizing t with
  | nil =>
      rw [List.append_nil]
      exact h
  | cons o os ih =>
      have hsnoc := ih (h.snoc fun habs => absurd habs (hos o (by simp)))
        (fun o' ho' => hos o' (by simp [ho']))
      rwa [List.append_assoc] at hsnoc

end Pattern

end Trace
