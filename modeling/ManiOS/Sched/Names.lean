import ManiOS.Sched.Runs

/-!
# Names of threads

A thread is named when it is created, and by no other function.  Every step of
the scheduler but a creation leaves the names alone, and only a creation puts a
thread on the list of all threads.  `sched_snapshot` reads the names of the
first threads on that list.
-/

namespace ManiOS.Sched

open Function (update)
open ManiOS.Lib

theorem Rep.schedSnapshot_mem {s : Sched} {l : Lists} (h : Rep s l) {max : Nat} {i : ThreadInfo}
    (hi : i ∈ s.schedSnapshot max) : ∃ t ∈ l.all, i.name = s.name t := by
  obtain ⟨t, ht, hi⟩ := List.mem_map.mp hi
  rw [h.all.collect_take] at ht
  exact ⟨t, List.mem_of_mem_take ht, hi ▸ rfl⟩

/-! ## Steps -/

/-- The creation of a thread. -/
def Event.creates : Event → Bool
  | .create _ _ => true
  | _ => false

variable {y y' : System} {l : Lists} {place : Tid → Place} {e : Event}

section

variable (h : y.perform e = some y') (he : e.creates = false)
include h he

theorem System.perform_creating : y'.creating = y.creating ∨
      e = .start ∧ y'.creating = update y.creating y.sched.current none := by
  cases e with
  | create t name => cases he
  | start =>
    obtain ⟨t, -, h⟩ := Option.map_eq_some_iff.mp h
    cases h
    exact .inr ⟨rfl, rfl⟩
  | yield | exit | wait _ | enablePreemption =>
    cases h
    exact .inl rfl
  | sleepUntil _ | waitUntil _ _ | wakeOne _ | wakeAll _ | tick _ | finishSwitch =>
    obtain ⟨s', -, h⟩ := Option.map_eq_some_iff.mp h
    cases h
    exact .inl rfl

theorem System.creating_of_perform {c t : Tid}
    (hc : y'.creating c = some t) : y.creating c = some t := by
  rcases System.perform_creating h he with hsame | ⟨-, hsame⟩ <;> rw [hsame] at hc
  · exact hc
  · by_cases hcur : c = y.sched.current
    · rw [hcur, Function.update_self] at hc
      cases hc
    · rwa [Function.update_of_ne hcur] at hc

end

/-- A step that creates no thread: no thread joins the list of all threads, and
those on it keep their names. -/
theorem Settled.step_names (h : Settled y l place) (he : y.Enabled e) (hc : e.creates = false) :
    ∃ y' l' place', y.perform e = some y' ∧ Settled y' l' place' ∧
      ∀ t ∈ l'.all, t ∈ l.all ∧ y'.sched.name t = y.sched.name t := by
  obtain ⟨y', hy', l', place', h', hadv⟩ := h.step he
  refine ⟨y', l', place', hy', h', fun t ht => ?_⟩
  have hold : t ∈ l.all := by
    rcases hadv.new t ht with ht' | hcreated
    · exact ht'
    · obtain ⟨c, hct⟩ := (h'.created t ht).mp hcreated
      exact (h.creating c t (System.creating_of_perform hy' hc hct)).1
  exact ⟨hold, hadv.name t hold⟩

end ManiOS.Sched
