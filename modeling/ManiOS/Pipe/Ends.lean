import ManiOS.Pipe.Calls

/-!
# Who may still use the pipe

`Ends` says which threads are in a call at an end or in its release, and when
the pipe is freed.  An end that a call uses is open.  An end is released by one
thread, and of two releases the second is the last.  While the pipe is
allocated and both ends are closed, that one has yet to free it.
-/

namespace ManiOS.Pipe

open Function (update update_self update_of_ne)

/-- The end that a thread is releasing, and whether it found the other closed. -/
def Pc.releases : Pc → Option (Side × Bool)
  | .wakeReaders e last | .wakeWriters e last => some (e, last)
  | .free e => some (e, true)
  | _ => none

/-- The message that belongs to a thread. -/
def Pc.holds : Pc → Option Addr
  | .recvFree _ a | .send _ a | .sendFree _ a => some a
  | _ => none

/-- The ends and the threads that use or release them. -/
structure Ends (s : State) : Prop where
  uses : ∀ t e, (s.pc t).uses = some e → s.isOpen e = true
  releases : ∀ t e last, (s.pc t).releases = some (e, last) →
    s.isOpen e = false ∧ (last = true → s.isOpen (!e) = false)
  releaser : ∀ t t' e last last', (s.pc t).releases = some (e, last) →
    (s.pc t').releases = some (e, last') → t = t'
  last : ∀ t t' e e', (s.pc t).releases = some (e, true) →
    (s.pc t').releases = some (e', true) → t = t'
  freed : s.live = false → ∀ e, s.isOpen e = false
  unfreed : s.live = true → (∀ e, s.isOpen e = false) → ∃ t e, (s.pc t).releases = some (e, true)

variable {s s' : State} {t : Tid} {e : Side} {p : Pc}

namespace Ends

/-- A last release is under way: both ends are closed. -/
theorem closed (h : Ends s) (ht : (s.pc t).releases = some (e, true)) (d : Side) :
    s.isOpen d = false := by
  obtain ⟨he, hother⟩ := h.releases t e true ht
  by_cases hd : d = e
  · rw [hd, he]
  · have hpeer : d = !e := by
      cases d <;> cases e <;> first | rfl | exact absurd rfl hd
    rw [hpeer, hother rfl]

theorem create : Ends .create where
  uses _ _ h := nomatch h
  releases _ _ _ h := nomatch h
  releaser _ _ _ _ _ h := nomatch h
  last _ _ _ _ h := nomatch h
  freed h := nomatch h
  unfreed _ h := nomatch h true

/-- A step of a thread that leaves the ends alone: it may enter a call at an
open end, but it does not begin a release, and ends none that is the last. -/
theorem goto (h : Ends s) (hopen : s'.isOpen = s.isOpen) (hlive : s'.live = s.live)
    (hpc : s'.pc = update s.pc t p) (huses : ∀ e, p.uses = some e → s.isOpen e = true)
    (hrel : p.releases = (s.pc t).releases ∨
      p.releases = none ∧ ∀ e, (s.pc t).releases ≠ some (e, true)) : Ends s' := by
  have hself : s'.pc t = p := by rw [hpc, update_self]
  have hother : ∀ {a}, a ≠ t → s'.pc a = s.pc a := fun ha => by
    rw [hpc, update_of_ne ha]
  -- a release that is under way now was under way before
  have hback : ∀ {a r}, (s'.pc a).releases = some r → (s.pc a).releases = some r := by
    intro a r hr
    by_cases ha : a = t
    · subst ha
      rw [hself] at hr
      rcases hrel with hrel | ⟨hnone, _⟩
      · exact hrel.symm.trans hr
      · exact nomatch hnone.symm.trans hr
    · exact hother ha ▸ hr
  exact {
    uses := fun a e ha => by
      rw [hopen]
      by_cases hat : a = t
      · subst hat
        exact huses e (hself ▸ ha)
      · exact h.uses a e (hother hat ▸ ha)
    releases := fun a e last ha => hopen ▸ h.releases a e last (hback ha)
    releaser := fun a a' e last last' ha ha' => h.releaser a a' e last last' (hback ha) (hback ha')
    last := fun a a' e e' ha ha' => h.last a a' e e' (hback ha) (hback ha')
    freed := fun hl => hopen ▸ h.freed (hlive ▸ hl)
    unfreed := fun hl hclosed => by
      obtain ⟨a, e, ha⟩ := h.unfreed (hlive ▸ hl) (hopen ▸ hclosed)
      refine ⟨a, e, ?_⟩
      by_cases hat : a = t
      · subst hat
        rcases hrel with hrel | ⟨_, hnot⟩
        · rw [hself, hrel]
          exact ha
        · exact absurd ha (hnot e)
      · rw [hother hat]
        exact ha }

theorem release (h : Ends s) (hlive : s.live = true) (hopen : s.isOpen e = true)
    (hfree : ∀ t', (s.pc t').uses ≠ some e) :
    Ends (State.goto t (.wakeReaders e !s.isOpen (!e))
      { s with isOpen := update s.isOpen e false }) := by
  have hself : ∀ {x}, update s.pc t x t = x := update_self ..
  have hother : ∀ {a x}, a ≠ t → update s.pc t x a = s.pc a := fun ha => update_of_ne ha ..
  have hclosed : update s.isOpen e false e = false := update_self ..
  have hkeep : ∀ {d}, d ≠ e → update s.isOpen e false d = s.isOpen d := fun hd => update_of_ne hd ..
  have hstay : ∀ {d}, s.isOpen d = false → update s.isOpen e false d = false := by
    intro d hd
    by_cases hde : d = e
    · rw [hde, hclosed]
    · rw [hkeep hde, hd]
  -- no release of this end was under way
  have hfirst : ∀ {a last}, (s.pc a).releases ≠ some (e, last) := by
    intro a last ha
    exact nomatch hopen.symm.trans (h.releases a e last ha).1
  have hnew : ∀ {a r}, (update s.pc t (.wakeReaders e !s.isOpen (!e)) a).releases = some r →
      a = t ∧ r = (e, !s.isOpen (!e)) ∨ a ≠ t ∧ (s.pc a).releases = some r := by
    intro a r hr
    by_cases hat : a = t
    · rw [hat, hself] at hr
      exact .inl ⟨hat, (Option.some.inj hr).symm⟩
    · exact .inr ⟨hat, hother hat ▸ hr⟩
  exact {
    uses := fun a d ha => by
      by_cases hat : a = t
      · subst hat
        exact nomatch (congrArg Pc.uses hself).symm.trans ha
      · have ha' : (s.pc a).uses = some d := (congrArg Pc.uses (hother hat)).symm.trans ha
        have hd : d ≠ e := fun hde => hfree a (hde ▸ ha')
        exact (hkeep hd).trans (h.uses a d ha')
    releases := fun a d last ha => by
      rcases hnew ha with ⟨_, hr⟩ | ⟨_, hold⟩
      · cases hr
        refine ⟨hclosed, fun hlast => hstay ?_⟩
        simpa using hlast
      · obtain ⟨hd, hl⟩ := h.releases a d last hold
        exact ⟨hstay hd, fun hlast => hstay (hl hlast)⟩
    releaser := fun a a' d last last' ha ha' => by
      rcases hnew ha with ⟨hat, hr⟩ | ⟨_, hold⟩
      · cases hr
        rcases hnew ha' with ⟨hat', _⟩ | ⟨_, hold'⟩
        · rw [hat, hat']
        · exact absurd hold' hfirst
      · rcases hnew ha' with ⟨_, hr⟩ | ⟨_, hold'⟩
        · cases hr
          exact absurd hold hfirst
        · exact h.releaser a a' d last last' hold hold'
    last := fun a a' d d' ha ha' => by
      rcases hnew ha with ⟨hat, _⟩ | ⟨_, hold⟩
      · rcases hnew ha' with ⟨hat', _⟩ | ⟨_, hold'⟩
        · rw [hat, hat']
        · exact nomatch hopen.symm.trans (h.closed hold' e)
      · exact nomatch hopen.symm.trans (h.closed hold e)
    freed := fun hl => nomatch hlive.symm.trans hl
    unfreed := fun _ hall => by
      refine ⟨t, e, ?_⟩
      show (update s.pc t _ t).releases = some (e, true)
      rw [hself]
      have hne : (!e) ≠ e := by cases e <;> decide
      have hpeer : s.isOpen (!e) = false := (hkeep hne).symm.trans (hall (!e))
      rw [hpeer]
      rfl }

theorem free (h : Ends s) (ht : s.pc t = .free e) (hopen : s'.isOpen = s.isOpen)
    (hlive : s'.live = false) (hpc : s'.pc = update s.pc t .out) : Ends s' := by
  have hrel : (s.pc t).releases = some (e, true) := by rw [ht]; rfl
  have hback : ∀ {a}, s'.pc a = .out ∨ a ≠ t ∧ s'.pc a = s.pc a := by
    intro a
    by_cases hat : a = t
    · subst hat
      exact .inl (by rw [hpc, update_self])
    · exact .inr ⟨hat, by rw [hpc, update_of_ne hat]⟩
  have hold : ∀ {a r}, (s'.pc a).releases = some r → (s.pc a).releases = some r := by
    intro a r hr
    rcases hback (a := a) with hout | ⟨_, he⟩
    · exact nomatch (congrArg Pc.releases hout).symm.trans hr
    · exact he ▸ hr
  exact {
    uses := fun a d ha => by
      rcases hback (a := a) with hout | ⟨_, he⟩
      · exact nomatch (congrArg Pc.uses hout).symm.trans ha
      · exact hopen ▸ h.uses a d (he ▸ ha)
    releases := fun a d last ha => hopen ▸ h.releases a d last (hold ha)
    releaser := fun a a' d last last' ha ha' => h.releaser a a' d last last' (hold ha) (hold ha')
    last := fun a a' d d' ha ha' => h.last a a' d d' (hold ha) (hold ha')
    freed := fun _ d => hopen ▸ h.closed hrel d
    unfreed := fun hl => nomatch hlive.symm.trans hl }

end Ends

end ManiOS.Pipe
