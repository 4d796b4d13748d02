import Mathlib.Data.List.GetD

/-!
# Streams of messages with partial reads

A channel holds messages.  A read returns a part of the first message that was
not read yet, and a message that was read to its end is gone.  The channel
remembers what was sent, and what was received with the number of messages that
were gone by then.

In every channel that is built from the empty one by `push` and `read` what was
received is what was sent, up to what is still held (`Ok.heard_append_unread`),
and the parts received of one message make up a beginning of that message
(`Ok.pieces_isPrefix`).
-/

namespace ManiOS.Lib

open List

variable {α : Type}

/-- A stream of messages, the held ones with the number of elements read. -/
structure Channel (α : Type) where
  sent : List (List α)
  received : List (Nat × List α)
  taken : Nat
  queue : List (List α × Nat)

namespace Channel

def empty : Channel α := ⟨[], [], 0, []⟩

variable (c : Channel α)

def push (data : List α) : Channel α :=
  { c with sent := c.sent ++ [data], queue := c.queue ++ [(data, 0)] }

/-- `n` elements of the first message are received. -/
def read (n : Nat) : Channel α :=
  match c.queue with
  | [] => c
  | (data, pos) :: rest =>
    { sent := c.sent
      received := c.received ++ [(c.taken, (data.drop pos).take n)]
      taken := if pos + n = data.length then c.taken + 1 else c.taken
      queue := if pos + n = data.length then rest else (data, pos + n) :: rest }

/-- What was received of the first message. -/
def begun : List α :=
  match c.queue with
  | [] => []
  | (data, pos) :: _ => data.take pos

/-- What is held and was not received. -/
def unread : List α := (c.queue.map fun m => m.1.drop m.2).flatten

/-- All that was received. -/
def heard : List α := (c.received.map (·.2)).flatten

/-- What was received of message number `i`. -/
def pieces (i : Nat) : List α :=
  ((c.received.filter (·.1 == i)).map (·.2)).flatten

/-- The messages held are the last ones sent, and what was received is what was
sent before them and the part read of the first. -/
structure Ok (c : Channel α) : Prop where
  taken : c.taken + c.queue.length = c.sent.length
  queue : c.sent.drop c.taken = c.queue.map (·.1)
  pos : ∀ m ∈ c.queue, m.2 ≤ m.1.length
  fresh : ∀ m ∈ c.queue.tail, m.2 = 0
  heard : c.heard = (c.sent.take c.taken).flatten ++ c.begun
  pieces : ∀ i, c.pieces i = if i < c.taken then c.sent.getD i [] else
    if i = c.taken then c.begun else []
  order : c.received.Pairwise fun a b => a.1 ≤ b.1
  bound : ∀ r ∈ c.received, r.1 ≤ c.taken ∧ r.1 < c.sent.length

variable {c : Channel α} {data : List α} {n : Nat}

theorem Ok.empty : Ok (empty : Channel α) where
  taken := rfl
  queue := rfl
  pos _ h := nomatch h
  fresh _ h := nomatch h
  heard := rfl
  pieces i := by
    show [] = if i < 0 then _ else if i = 0 then [] else []
    rw [if_neg (Nat.not_lt_zero i), ite_self]
  order := .nil
  bound _ h := nomatch h

/-- A message put after the others does not change what was read of the first. -/
theorem begun_push (c : Channel α) (data : List α) : (c.push data).begun = c.begun := by
  unfold begun push
  cases c.queue with
  | nil => exact take_zero
  | cons m rest => rfl

theorem Ok.push (h : Ok c) (data : List α) : Ok (c.push data) where
  taken := by
    simp only [Channel.push, length_append, length_singleton]
    have := h.taken
    omega
  queue := by
    have hle : c.taken ≤ c.sent.length := by
      have := h.taken
      omega
    simp only [Channel.push, map_append, map_singleton]
    rw [drop_append_of_le_length hle, h.queue]
  pos := forall_mem_append.mpr ⟨h.pos, forall_mem_singleton.mpr (Nat.zero_le _)⟩
  fresh m hm := by
    simp only [Channel.push] at hm
    cases hq : c.queue with
    | nil =>
      rw [hq] at hm
      exact nomatch hm
    | cons m' rest =>
      rw [hq, cons_append] at hm
      rcases mem_append.mp hm with hm | hm
      · exact h.fresh m (by rwa [hq])
      · cases mem_singleton.mp hm
        rfl
  heard := by
    have hle : c.taken ≤ c.sent.length := by
      have := h.taken
      omega
    rw [begun_push]
    show c.heard = ((c.sent ++ [data]).take c.taken).flatten ++ c.begun
    rw [take_append_of_le_length hle]
    exact h.heard
  pieces i := by
    have hlen := h.taken
    rw [begun_push]
    show c.pieces i = if i < c.taken then (c.sent ++ [data]).getD i [] else _
    rw [h.pieces]
    by_cases hi : i < c.taken
    · rw [if_pos hi, if_pos hi, getD_append _ _ _ _ (by omega)]
    · rw [if_neg hi, if_neg hi]
      rfl
  order := h.order
  bound r hr := by
    obtain ⟨h1, h2⟩ := h.bound r hr
    refine ⟨h1, ?_⟩
    simp only [Channel.push, length_append]
    omega

/-! ## A read -/

section Read

variable {pos : Nat} {rest : List (List α × Nat)}

section

variable (hq : c.queue = (data, pos) :: rest)
include hq

theorem read_eq : c.read n =
      { sent := c.sent
        received := c.received ++ [(c.taken, (data.drop pos).take n)]
        taken := if pos + n = data.length then c.taken + 1 else c.taken
        queue := if pos + n = data.length then rest else (data, pos + n) :: rest } := by
  unfold read
  rw [hq]

theorem begun_append : c.begun ++ (data.drop pos).take n = data.take (pos + n) := by
  unfold begun
  rw [hq, take_add]

end

section

variable (h : Ok c) (hq : c.queue = (data, pos) :: rest)
include h hq

theorem Ok.sent_getElem : c.sent[c.taken]? = some data := by
  have hdrop := h.queue
  rw [hq] at hdrop
  rw [← head?_drop, hdrop]
  rfl

theorem Ok.taken_lt : c.taken < c.sent.length := by
  have hlen := h.taken
  rw [hq, length_cons] at hlen
  omega

theorem Ok.begun_rest : begun { c with queue := rest } = [] := by
  have hfresh := h.fresh
  rw [hq] at hfresh
  cases rest with
  | nil => rfl
  | cons m rest =>
    obtain ⟨data', pos'⟩ := m
    have hpos : pos' = 0 := hfresh _ mem_cons_self
    show data'.take pos' = []
    rw [hpos, take_zero]

theorem Ok.hear (hn : pos + n ≤ data.length) : Ok { c with
      received := c.received ++ [(c.taken, (data.drop pos).take n)]
      queue := (data, pos + n) :: rest } := by
  have hmore := begun_append (n := n) hq
  have hlt := h.taken_lt hq
  have htail := h.fresh
  have hpos := h.pos
  have hlen := h.taken
  have hdrop := h.queue
  rw [hq] at htail hpos hlen hdrop
  exact {
    taken := hlen
    queue := hdrop
    pos := forall_mem_cons.mpr ⟨hn, (forall_mem_cons.mp hpos).2⟩
    fresh := htail
    heard := by
      rw [Channel.heard, map_append, flatten_append]
      refine (congrArg (· ++ _) h.heard).trans ?_
      rw [append_assoc, map_singleton, flatten_singleton, hmore]
      rfl
    pieces := fun i => by
      rw [Channel.pieces, filter_append, map_append, flatten_append]
      refine (congrArg (· ++ _) (h.pieces i)).trans ?_
      show _ = if i < c.taken then c.sent.getD i [] else if i = c.taken then data.take (pos + n)
        else []
      by_cases he : i = c.taken
      · simp [he, hmore]
      · simp [he, Ne.symm he]
    order := by
      refine pairwise_append.mpr ⟨h.order, pairwise_singleton _ _, fun a ha b hb => ?_⟩
      cases mem_singleton.mp hb
      exact (h.bound a ha).1
    bound := forall_mem_append.mpr ⟨h.bound, forall_mem_singleton.mpr ⟨Nat.le_refl _, hlt⟩⟩ }

end

theorem Ok.finish (h : Ok c) (hq : c.queue = (data, data.length) :: rest) :
    Ok { c with taken := c.taken + 1, queue := rest } := by
  have hall : c.begun = data := by
    unfold begun
    rw [hq]
    exact take_length
  have hbegun := h.begun_rest hq
  have hget := h.sent_getElem hq
  have htail := h.fresh
  have hpos := h.pos
  have hlen := h.taken
  have hdrop := h.queue
  rw [hq] at htail hpos hlen hdrop
  exact { h with
    taken := by
      rw [length_cons] at hlen
      show c.taken + 1 + rest.length = c.sent.length
      omega
    queue := by
      rw [← tail_drop, hdrop]
      rfl
    pos := (forall_mem_cons.mp hpos).2
    fresh := fun m hm => htail m (mem_of_mem_tail hm)
    heard := by
      refine h.heard.trans ?_
      show _ = (c.sent.take (c.taken + 1)).flatten ++ begun { c with queue := rest }
      rw [hall, hbegun, take_add_one, hget]
      simp
    pieces := fun i => by
      refine (h.pieces i).trans ?_
      show _ = if i < c.taken + 1 then c.sent.getD i [] else
        if i = c.taken + 1 then begun { c with queue := rest } else []
      rw [hall, hbegun, ite_self]
      rcases Nat.lt_trichotomy i c.taken with hi | rfl | hi
      · rw [if_pos hi, if_pos (Nat.lt_succ_of_lt hi)]
      · rw [if_neg (Nat.lt_irrefl _), if_pos rfl, if_pos (Nat.lt_succ_self _),
          getD_eq_getElem?_getD, hget]
        rfl
      · rw [if_neg (by omega), if_neg (by omega), if_neg (by omega)]
    bound := fun r hr => ⟨Nat.le_succ_of_le (h.bound r hr).1, (h.bound r hr).2⟩ }

theorem Ok.read (h : Ok c) (hq : c.queue = (data, pos) :: rest) (hn : pos + n ≤ data.length) :
    Ok (c.read n) := by
  have hear := h.hear hq hn
  rw [read_eq hq]
  split
  next heq => exact hear.finish (by rw [heq])
  next => exact hear

end Read

/-! ## What was received is what was sent -/

theorem begun_append_unread (h : Ok c) : c.begun ++ c.unread = (c.queue.map (·.1)).flatten := by
  have hfresh := h.fresh
  unfold begun unread
  cases hq : c.queue with
  | nil => rfl
  | cons m rest =>
    rw [hq] at hfresh
    have hrest : rest.map (fun m => m.1.drop m.2) = rest.map (·.1) :=
      map_congr_left fun m hm => by rw [hfresh m hm, drop_zero]
    simp only [map_cons, flatten_cons, hrest]
    rw [← append_assoc, take_append_drop]

/-- Nothing is lost and nothing is received twice. -/
theorem Ok.heard_append_unread (h : Ok c) : c.heard ++ c.unread = c.sent.flatten := by
  rw [h.heard, append_assoc, begun_append_unread h, ← h.queue, ← flatten_append, take_append_drop]

theorem Ok.heard_isPrefix (h : Ok c) : c.heard <+: c.sent.flatten :=
  ⟨c.unread, h.heard_append_unread⟩

/-- The parts received of one message make up a beginning of it. -/
theorem Ok.pieces_isPrefix (h : Ok c) (i : Nat) : c.pieces i <+: c.sent.getD i [] := by
  rw [h.pieces]
  split
  · exact prefix_refl _
  · split
    · next hi =>
      subst hi
      unfold begun
      cases hq : c.queue with
      | nil => exact nil_prefix
      | cons m rest =>
        rw [getD_eq_getElem?_getD, h.sent_getElem hq]
        exact take_prefix _ _
    · exact nil_prefix

end Channel

end ManiOS.Lib
