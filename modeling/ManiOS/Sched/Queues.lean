import ManiOS.Sched.Threads
import Mathlib.Data.List.Perm.Subperm
import Mathlib.Data.List.TakeWhile

/-!
# The scheduler's lists

`Lists` is what the pointers stand for: the threads of every queue, of the
sleep list and of the list of all threads.  `Rep s l` says that the pointers of
`s` stand for `l`, that no thread is on two queues, that the sleep list is
sorted, and that a thread on any list is on the list of all threads.

There is one lemma for each function of `sched.c` that stores into a link.  It
says that the function returns, which lists the new pointers stand for, and
which fields it left alone.
-/

namespace ManiOS.Sched

open Function (update update_self update_of_ne)
open ManiOS.Lib List

/-- The threads of each list, first one first. -/
structure Lists where
  queue : QueueId → List Tid
  sleep : List Tid
  all : List Tid

namespace Lists

def setQueue (l : Lists) (k : QueueId) (q : List Tid) : Lists :=
  { l with queue := update l.queue k q }

/-- On no queue and not on the sleep list. -/
structure Loose (l : Lists) (t : Tid) : Prop where
  queue : ∀ k, t ∉ l.queue k
  sleep : t ∉ l.sleep

variable {l : Lists} {k k' : QueueId} {q : List Tid}

@[simp] theorem setQueue_queue_self : (l.setQueue k q).queue k = q := update_self ..

theorem setQueue_queue_of_ne (h : k' ≠ k) : (l.setQueue k q).queue k' = l.queue k' :=
  update_of_ne h ..

end Lists

/-- The pointers of `s` stand for the lists `l`. -/
structure Rep (s : Sched) (l : Lists) : Prop where
  queue : ∀ k, (s.queue k).Holds s.next (l.queue k)
  apart : ∀ {k k' t}, t ∈ l.queue k → t ∈ l.queue k' → k = k'
  sleep : Linked s.sleepNext s.sleepers l.sleep
  sorted : l.sleep.Pairwise fun a b => s.wakeTick a ≤ s.wakeTick b
  all : Linked s.allNext s.allThreads l.all
  queued : ∀ {k t}, t ∈ l.queue k → t ∈ l.all
  asleep : ∀ {t}, t ∈ l.sleep → t ∈ l.all
  count : s.threadCount = l.all.length
  live : ∀ t, s.allocated t = true ↔ t ∈ l.all

namespace Rep

variable {s : Sched} {l : Lists} {t : Tid} {k : QueueId} {w : Wid} {r : List Tid}

/-! ## Lengths -/

variable (h : Rep s l)
include h

theorem queue_length (k : QueueId) : (l.queue k).length ≤ s.threadCount := by
  rw [h.count]
  exact (subperm_of_subset (h.queue k).nodup fun _ hm => h.queued hm).length_le

theorem sleep_length : l.sleep.length ≤ s.threadCount := by
  rw [h.count]
  exact (subperm_of_subset h.sleep.nodup fun _ hm => h.asleep hm).length_le

theorem queued_eq (k : QueueId) : s.queued k = l.queue k :=
  (h.queue k).linked.collect_eq (h.queue_length k)

theorem asleep_eq : s.asleep = l.sleep := h.sleep.collect_eq h.sleep_length

theorem threads_eq : s.threads = l.all := h.all.collect_eq (le_of_eq h.count.symm)

/-! ## Queues -/

/-- A queue whose cells changed, the others linked as before.  The new cells
are threads of no other queue. -/
theorem setQueue {nx : Tid → Option Tid} {f : Fifo Tid} {q : List Tid}
    (hq : f.Holds nx q) (hkeep : ∀ k', k' ≠ k → ∀ a ∈ l.queue k', nx a = s.next a)
    (hmem : ∀ a ∈ q, a ∈ l.all ∧ ∀ k', k' ≠ k → a ∉ l.queue k') :
    Rep { s with next := nx, queue := update s.queue k f } (l.setQueue k q) := { h with
  queue k' := by
    by_cases hk : k' = k
    · subst hk
      show Fifo.Holds nx (update s.queue k' f k') ((l.setQueue k' q).queue k')
      rw [update_self, Lists.setQueue_queue_self]
      exact hq
    · show Fifo.Holds nx (update s.queue k f k') ((l.setQueue k q).queue k')
      rw [update_of_ne hk, Lists.setQueue_queue_of_ne hk]
      exact (h.queue k').congr (hkeep k' hk)
  apart {k1 k2 a} h1 h2 := by
    by_cases hk1 : k1 = k
    · by_cases hk2 : k2 = k
      · rw [hk1, hk2]
      · rw [hk1, Lists.setQueue_queue_self] at h1
        rw [Lists.setQueue_queue_of_ne hk2] at h2
        exact absurd h2 ((hmem a h1).2 k2 hk2)
    · rw [Lists.setQueue_queue_of_ne hk1] at h1
      by_cases hk2 : k2 = k
      · rw [hk2, Lists.setQueue_queue_self] at h2
        exact absurd h1 ((hmem a h2).2 k1 hk1)
      · rw [Lists.setQueue_queue_of_ne hk2] at h2
        exact h.apart h1 h2
  queued {k' a} ha := by
    by_cases hk : k' = k
    · rw [hk, Lists.setQueue_queue_self] at ha
      exact (hmem a ha).1
    · rw [Lists.setQueue_queue_of_ne hk] at ha
      exact h.queued ha }

theorem notMem_of_ne {k' : QueueId} {a : Tid} (ha : a ∈ l.queue k) (hk : k' ≠ k) : a ∉ l.queue k' :=
  fun ha' => hk (h.apart ha' ha)

theorem enqueue (ht : t ∈ l.all) (hq : ∀ k, t ∉ l.queue k) :
    Rep (s.enqueue k t) (l.setQueue k (l.queue k ++ [t])) := by
  refine h.setQueue ((h.queue k).push (hq k)) (fun k' hk a ha => ?_)
    (forall_mem_append.mpr ⟨fun a ha => ⟨h.queued ha, fun k' hk => h.notMem_of_ne ha hk⟩,
      forall_mem_singleton.mpr ⟨ht, fun k' _ => hq k'⟩⟩)
  refine Fifo.push_next_of_notMem (h.queue k) (h.notMem_of_ne ha (.symm hk)) ?_
  rintro rfl
  exact hq k' ha

theorem dequeue_nil (hk : l.queue k = []) : s.dequeue k = none := by
  rw [dequeue, Fifo.Holds.pop_nil (hk ▸ h.queue k)]
  rfl

theorem dequeue_cons (hk : l.queue k = t :: r) :
    ∃ f, s.dequeue k = some (t, { s with queue := update s.queue k f }) ∧
      Rep { s with queue := update s.queue k f } (l.setQueue k r) := by
  have hcells := h.queue k
  rw [hk] at hcells
  obtain ⟨f, hpop, hf⟩ := hcells.pop_cons
  refine ⟨f, by rw [dequeue, hpop]; rfl, ?_⟩
  refine h.setQueue hf (fun _ _ _ _ => rfl) fun a ha => ?_
  have ha' : a ∈ l.queue k := hk ▸ mem_cons_of_mem t ha
  exact ⟨h.queued ha', fun k' hk' => h.notMem_of_ne ha' hk'⟩

theorem waitqRemove (ht : t ∈ l.queue (.waitq w)) : ∃ nx f, s.waitqRemove w t =
        some { s with next := nx, queue := update s.queue (.waitq w) f } ∧
      Rep { s with next := nx, queue := update s.queue (.waitq w) f }
        (l.setQueue (.waitq w) ((l.queue (.waitq w)).erase t)) := by
  have hcells := h.queue (.waitq w)
  obtain ⟨a, b, -, hab, herase⟩ := exists_erase_eq ht
  rw [hab] at hcells
  have hlen : (a ++ t :: b).length < s.budget := by
    rw [← hab]
    exact Nat.lt_succ_of_le (h.queue_length _)
  refine ⟨_, _, by rw [Sched.waitqRemove, cursor_mem hcells.linked hlen]; rfl, ?_⟩
  rw [herase]
  refine h.setQueue hcells.remove (fun k' hk c hc => ?_) fun c hc => ?_
  · refine relink_getLast_of_notMem fun hca => ?_
    exact h.notMem_of_ne hc (.symm hk) (hab ▸ mem_append_left _ hca)
  · have hc' : c ∈ l.queue (.waitq w) := mem_of_mem_erase (herase ▸ hc)
    exact ⟨h.queued hc', fun k' hk => h.notMem_of_ne hc' hk⟩

/-! ## The sleep list -/

theorem setWakeTick (ht : t ∉ l.sleep) (n : Nat) :
    Rep { s with wakeTick := update s.wakeTick t n } l := { h with
  sorted := by
    refine h.sorted.imp_of_mem fun {a b} ha hb hab => ?_
    show update s.wakeTick t n a ≤ update s.wakeTick t n b
    rw [update_of_ne (fun he : a = t => ht (he ▸ ha)),
      update_of_ne (fun he : b = t => ht (he ▸ hb))]
    exact hab }

theorem setSleep {nx : Tid → Option Tid} {p : Option Tid} {q : List Tid}
    (hq : Linked nx p q) (hsorted : q.Pairwise fun a b => s.wakeTick a ≤ s.wakeTick b)
    (hmem : ∀ a ∈ q, a ∈ l.all) :
    Rep { s with sleepNext := nx, sleepers := p } { l with sleep := q } := { h with
  sleep := hq
  sorted := hsorted
  asleep {a} := hmem a }

theorem sleepInsert (ht : t ∈ l.all) (hs : t ∉ l.sleep) :
    ∃ nx p a b, s.sleepInsert t = some { s with sleepNext := nx, sleepers := p } ∧
      l.sleep = a ++ b ∧
      Rep { s with sleepNext := nx, sleepers := p } { l with sleep := a ++ t :: b } := by
  let go : Tid → Bool := fun c => decide (s.wakeTick c ≤ s.wakeTick t)
  have hsplit : l.sleep.takeWhile go ++ l.sleep.dropWhile go = l.sleep := takeWhile_append_dropWhile
  have hlen : l.sleep.length < s.budget := Nat.lt_succ_of_le h.sleep_length
  refine ⟨relink (update s.sleepNext t (l.sleep.dropWhile go).head?)
      (l.sleep.takeWhile go).getLast? (some t),
    rehead s.sleepers (l.sleep.takeWhile go).getLast? (some t),
    l.sleep.takeWhile go, l.sleep.dropWhile go, ?_, hsplit.symm, ?_⟩
  · rw [Sched.sleepInsert, cursor_eq h.sleep hlen, Option.or_none]
    rfl
  · have hlinked : Linked s.sleepNext s.sleepers
        (l.sleep.takeWhile go ++ l.sleep.dropWhile go) := by
      rw [hsplit]
      exact h.sleep
    refine h.setSleep (hlinked.insert (by rwa [hsplit])) ?_ fun a ha => ?_
    · have hsorted := h.sorted
      rw [← hsplit, pairwise_append] at hsorted
      obtain ⟨hbefore, hafter, hacross⟩ := hsorted
      have hle : ∀ c ∈ l.sleep.takeWhile go, s.wakeTick c ≤ s.wakeTick t := fun c hc =>
        of_decide_eq_true (show go c = true from mem_takeWhile_imp hc)
      -- the first thread passed over wakes later, and it is the earliest
      have hge : ∀ c ∈ l.sleep.dropWhile go, s.wakeTick t ≤ s.wakeTick c := by
        cases hdrop : l.sleep.dropWhile go with
        | nil => exact fun c hc => nomatch hc
        | cons d r =>
          have hd : ¬ s.wakeTick d ≤ s.wakeTick t := by
            have := head?_dropWhile_not go l.sleep
            rw [hdrop] at this
            exact of_decide_eq_false (by simpa [go] using this)
          rw [hdrop, pairwise_cons] at hafter
          intro c hc
          rcases mem_cons.mp hc with rfl | hc
          · omega
          · have := hafter.1 c hc
            omega
      rw [pairwise_append, pairwise_cons]
      exact ⟨hbefore, ⟨hge, hafter⟩, fun c hc => forall_mem_cons.mpr ⟨hle c hc, hacross c hc⟩⟩
    · rw [mem_append, mem_cons] at ha
      rcases ha with ha | rfl | ha
      · exact h.asleep ((takeWhile_sublist go).subset ha)
      · exact ht
      · exact h.asleep ((dropWhile_sublist go).subset ha)

theorem sleepRemove (ht : t ∈ l.sleep) :
    ∃ nx p, s.sleepRemove t = some { s with sleepNext := nx, sleepers := p } ∧
      Rep { s with sleepNext := nx, sleepers := p } { l with sleep := l.sleep.erase t } := by
  have hcells := h.sleep
  obtain ⟨a, b, -, hab, herase⟩ := exists_erase_eq ht
  rw [hab] at hcells
  have hlen : (a ++ t :: b).length < s.budget := by
    rw [← hab]
    exact Nat.lt_succ_of_le h.sleep_length
  refine ⟨_, _, by rw [Sched.sleepRemove, cursor_mem hcells hlen]; rfl, ?_⟩
  refine h.setSleep ?_ (h.sorted.sublist erase_sublist) fun c hc => h.asleep (mem_of_mem_erase hc)
  rw [herase]
  exact hcells.erase

theorem sleepPop (hs : l.sleep = t :: r) :
    s.sleepers = some t ∧ Rep { s with sleepers := s.sleepNext t } { l with sleep := r } := by
  have hcells := h.sleep
  have hsorted := h.sorted
  rw [hs] at hcells hsorted
  refine ⟨hcells.1, h.setSleep hcells.2 (pairwise_cons.mp hsorted).2 fun a ha => ?_⟩
  exact h.asleep (hs ▸ mem_cons_of_mem t ha)

/-! ## All threads -/

theorem threadAlloc (ht : t ∉ l.all) (name : NamePtr) :
    Rep (s.threadAlloc t name) { l with all := t :: l.all } := { h with
  queue k := (h.queue k).congr fun a ha => update_of_ne (fun he : a = t => ht (he ▸ h.queued ha)) ..
  sleep := h.sleep.congr fun a ha => update_of_ne (fun he : a = t => ht (he ▸ h.asleep ha)) ..
  all := by
    refine ⟨rfl, ?_⟩
    show Linked (update s.allNext t s.allThreads) (update s.allNext t s.allThreads t) l.all
    rw [update_self]
    exact h.all.congr fun a ha => update_of_ne (fun he : a = t => ht (he ▸ ha)) ..
  queued ha := mem_cons_of_mem t (h.queued ha)
  asleep ha := mem_cons_of_mem t (h.asleep ha)
  count := congrArg (· + 1) h.count
  live a := by
    show update s.allocated t true a = true ↔ a ∈ t :: l.all
    by_cases ha : a = t
    · subst ha
      simp
    · rw [update_of_ne ha, h.live, mem_cons, or_iff_right ha] }

theorem reclaim (ht : t ∈ l.all) (hloose : l.Loose t) :
    ∃ nx p, s.allThreadsRemove t = some { s with allNext := nx, allThreads := p } ∧
      Rep { s with
        allNext := nx
        allThreads := p
        allocated := update s.allocated t false
        threadCount := s.threadCount - 1
        switching := false } { l with all := l.all.erase t } := by
  have hcells := h.all
  obtain ⟨a, b, -, hab, herase⟩ := exists_erase_eq ht
  rw [hab] at hcells
  have hlen : (a ++ t :: b).length < s.budget := by
    rw [← hab, budget, h.count]
    exact Nat.lt_succ_self _
  refine ⟨_, _, by rw [Sched.allThreadsRemove, cursor_mem hcells hlen]; rfl, ?_⟩
  exact { h with
    all := by
      rw [herase]
      exact hcells.erase
    queued := fun {k c} hc =>
      (mem_erase_of_ne (fun he : c = t => hloose.queue k (he ▸ hc))).mpr (h.queued hc)
    asleep := fun {c} hc =>
      (mem_erase_of_ne (fun he : c = t => hloose.sleep (he ▸ hc))).mpr (h.asleep hc)
    count := by
      rw [length_erase_of_mem ht, ← h.count]
    live := fun c => by
      show update s.allocated t false c = true ↔ c ∈ l.all.erase t
      rw [h.all.nodup.mem_erase_iff]
      by_cases hc : c = t
      · subst hc
        simp
      · rw [update_of_ne hc, h.live, and_iff_right hc] }

omit h

end Rep

end ManiOS.Sched
