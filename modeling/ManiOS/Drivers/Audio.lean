import Mathlib.Data.List.NodupEquivFin
import Mathlib.Data.List.Range
import ManiOS.Base
import ManiOS.Lib.Padded
import ManiOS.Lib.Runs

/-!
# The audio layer

A sound card plays the fragments of a ring, one after the other.  A writer fills them, and
waits if it is a ring ahead of the card.  If the card begins a fragment before the writer
has filled it, what the fragment has so far is played, and then silence.

The card takes what a fragment has when it begins the fragment.  `played` is all that it
has taken.  A copy to the ring can be interrupted after any byte, so copying some bytes is
a step of its own.

Two things go wrong if the card begins the fragment that the writer is filling.  While the
writer copies to it, the rest of the copy comes too late.  And if some bytes are there
already, the writer carries them to the next fragment, and they are played once more.
-/

namespace ManiOS.Audio

open Function (update update_self update_of_ne)
open Lib (Padded)
open List

def fragmentBytes : Nat := 4096

def fragments : Nat := 4

/-! ## The ring -/

/-- The variables of the audio layer.  The ring is a table of its fragments. -/
structure Sound where
  ring : Nat → Nat → UInt8
  started : Nat
  filled : Nat
  offset : Nat
  running : Bool
  /-- What the card has taken so far. -/
  played : List UInt8

namespace Sound

def fragment (n : Nat) (s : Sound) : Nat → UInt8 := s.ring (n % fragments)

def bytes (n len : Nat) (s : Sound) : List UInt8 := (List.range len).map (s.fragment n)

/-- `n - 1`, in 32 bits. -/
def pred (n : Nat) : Nat := u32 (n + 4294967295)

variable (s : Sound)

/-- The card begins the next fragment, and calls `audio_fragment_done`. -/
def fragmentDone : Sound :=
  if s.running then
    { s with
      played := s.played ++ s.bytes s.started fragmentBytes
      ring := update s.ring (pred s.started % fragments) fun _ => 0
      started := u32 (s.started + 1) }
  else s

def full : Bool := s.running && decide (u32 (pred s.started + fragments) ≤ s.filled)

/-- If the card has caught up, the writer goes on with the fragment that is played next. -/
def carry : Sound :=
  if s.running ∧ s.filled < s.started then
    { s with
      ring := if s.offset ≠ 0 ∧ s.filled % fragments ≠ s.started % fragments then
          update s.ring (s.started % fragments) fun i =>
            if i < s.offset then s.fragment s.filled i else s.fragment s.started i
        else s.ring
      filled := s.started }
  else s

/-- Bytes are copied to the fragment that is filled, `pos` bytes from its start. -/
def put (pos : Nat) (bs : List UInt8) (s : Sound) : Sound :=
  { s with ring := update s.ring (s.filled % fragments) fun i =>
      if pos ≤ i ∧ i < pos + bs.length then bs.getD (i - pos) 0 else s.fragment s.filled i }

/-- A fragment is filled.  The first one starts the card, which begins with it. -/
def complete : Sound :=
  let s := { s with filled := u32 (s.filled + 1), offset := 0 }
  if s.running then s
  else { s with running := true, started := 1, played := s.played ++ s.bytes 0 fragmentBytes }

def advance (chunk : Nat) (s : Sound) : Sound :=
  let s := { s with offset := u32 (s.offset + chunk) }
  if s.offset = fragmentBytes then s.complete else s

/-- The rest of the last fragment is silence. -/
def silenceRest : Sound :=
  { s with ring := update s.ring (s.filled % fragments) fun i =>
      if s.offset ≤ i ∧ i < fragmentBytes then 0 else s.fragment s.filled i }

def stop : Sound := ⟨fun _ _ => 0, 0, 0, 0, false, s.played⟩

end Sound

/-! ## The writer -/

/-- Where the thread is that writes or closes. -/
inductive Writer where
  | idle
  /-- At the head of the loop of `audio_write`, with what is left to write. -/
  | loop (rest : List UInt8)
  /-- In `memcpy`, with `k` bytes of the chunk copied. -/
  | copy (k : Nat) (chunk rest : List UInt8)
  /-- In `audio_close`, before the last fragment is counted. -/
  | closing
  /-- In `audio_close`, until all is played. -/
  | waiting
  | closed
deriving DecidableEq, Repr

structure State where
  sound : Sound
  writer : Writer
  /-- What `audio_write` was called with. -/
  written : List UInt8

inductive Act where
  | write (w : List UInt8)
  | check
  | copy (j : Nat)
  | finish
  | close
  | closeFill
  | stop
  /-- The interrupt of the card. -/
  | done

def State.step (s : State) : Act → Option State
  | .write w =>
    match s.writer with
    | .idle => some { s with writer := .loop w, written := s.written ++ w }
    | _ => none
  | .check =>
    match s.writer with
    | .loop rest =>
      if rest = [] then some { s with writer := .idle }
      else if s.sound.full then none
      else
        let sound := s.sound.carry
        some { s with
          sound
          writer := .copy 0 (rest.take (fragmentBytes - sound.offset))
            (rest.drop (fragmentBytes - sound.offset)) }
    | _ => none
  | .copy j =>
    match s.writer with
    | .copy k chunk rest =>
      if k + j ≤ chunk.length then
        some { s with
          sound := s.sound.put (s.sound.offset + k) ((chunk.drop k).take j)
          writer := .copy (k + j) chunk rest }
      else none
    | _ => none
  | .finish =>
    match s.writer with
    | .copy k chunk rest =>
      if k = chunk.length then
        some { s with sound := s.sound.advance chunk.length, writer := .loop rest }
      else none
    | _ => none
  | .close =>
    match s.writer with
    | .idle =>
      if s.sound.offset ≠ 0 then
        some { s with sound := s.sound.silenceRest, writer := .closing }
      else if s.sound.running then some { s with writer := .waiting }
      else some { s with writer := .closed }
    | _ => none
  | .closeFill =>
    match s.writer with
    | .closing => some { s with sound := s.sound.complete, writer := .waiting }
    | _ => none
  | .stop =>
    match s.writer with
    | .waiting =>
      if s.sound.running ∧ s.sound.started ≤ s.sound.filled then none
      else some { s with sound := s.sound.stop, writer := .closed }
    | _ => none
  | .done => some { s with sound := s.sound.fragmentDone }

/-- The card does not begin the fragment that is being copied to, nor has it begun one that
is filled in part when the writer goes on.  Its count does not wrap. -/
def Timely (s : State) : Act → Prop
  | .done => s.sound.started + 4 < 4294967296 ∧
      ∀ k chunk rest, s.writer = .copy k chunk rest → k < chunk.length →
        s.sound.started = s.sound.filled → s.sound.running = false
  | .check => ∀ rest, s.writer = .loop rest → rest ≠ [] → s.sound.running = true →
      s.sound.started = s.sound.filled + 1 → s.sound.offset = 0
  | _ => True

def TimelyStep (a : Act) (s s' : State) : Prop := Timely s a ∧ s.step a = some s'

def opened : State := ⟨⟨fun _ _ => 0, 0, 0, 0, false, []⟩, .idle, []⟩

/-! ## What is in the ring -/

variable {s : Sound} {fill : Nat} {sent : List UInt8}

namespace Sound

/-- The writer fills fragments below this one. -/
def limit (s : Sound) : Nat := if s.running then s.started + 3 else 4

/-- `m` fragments from `n` on. -/
def span (s : Sound) (n : Nat) : Nat → List UInt8
  | 0 => []
  | m + 1 => s.span n m ++ s.bytes (n + m) fragmentBytes

/-- The writer is not behind the card.  `fill` is the number of bytes in the fragment that
is filled. -/
structure Ahead (s : Sound) (fill : Nat) (sent : List UInt8) : Prop where
  first : s.running = false → s.started = 0 ∧ s.filled = 0
  begun : s.running = true → 0 < s.started
  le : s.started ≤ s.filled
  room : s.filled < s.limit ∨ s.filled = s.limit ∧ fill = 0
  zero : ∀ n k, s.filled ≤ n → n < s.limit → s.filled < n ∨ fill ≤ k → s.fragment n k = 0
  padded : Padded 0 (s.played ++ s.span s.started (s.filled - s.started) ++ s.bytes s.filled fill) sent

/-- The card has begun the fragment that is filled, and all is played. -/
structure Behind (s : Sound) (sent : List UInt8) : Prop where
  running : s.running = true
  lt : s.filled < s.started
  zero : ∀ n k, s.started ≤ n → n < s.started + 3 → s.fragment n k = 0
  quiet : s.filled + 1 < s.started → ∀ n k, s.fragment n k = 0
  padded : Padded 0 s.played sent

variable {n : Nat}

theorem bytes_congr {s' : Sound} {len : Nat}
    (h : ∀ k < len, s'.fragment n k = s.fragment n k) : s'.bytes n len = s.bytes n len :=
  map_congr_left fun k hk => h k (mem_range.mp hk)

theorem bytes_add (n a b : Nat) :
    s.bytes n (a + b) = s.bytes n a ++ (List.range b).map fun k => s.fragment n (a + k) := by
  rw [bytes, range_add, map_append, map_map]
  rfl

theorem bytes_padded (h : ∀ k, fill ≤ k → s.fragment n k = 0) (m : Nat) :
    s.bytes n (fill + m) = s.bytes n fill ++ List.replicate m 0 := by
  refine (bytes_add ..).trans (congrArg _ (eq_replicate_iff.mpr ⟨?_, fun b hb => ?_⟩))
  · rw [length_map, length_range]
  · obtain ⟨k, -, rfl⟩ := mem_map.mp hb
    exact h _ (Nat.le_add_right ..)

theorem bytes_zero (h : ∀ k, s.fragment n k = 0) (m : Nat) :
    s.bytes n m = List.replicate m 0 := by
  have hall := bytes_padded (fun k (_ : 0 ≤ k) => h k) m
  rwa [Nat.zero_add] at hall

theorem span_congr {s' : Sound} {m : Nat}
    (h : ∀ i k, n ≤ i → i < n + m → s'.fragment i k = s.fragment i k) :
    s'.span n m = s.span n m := by
  induction m with
  | zero => rfl
  | succ m ih =>
    rw [span, span, ih fun i k hi hi' => h i k hi (by omega),
      bytes_congr fun k _ => h (n + m) k (by omega) (by omega)]

theorem span_ring {s' : Sound} (h : s'.ring = s.ring) (n m : Nat) :
    s'.span n m = s.span n m :=
  span_congr fun _ _ _ _ => by rw [fragment, fragment, h]

theorem span_cons (n m : Nat) : s.span n (m + 1) = s.bytes n fragmentBytes ++ s.span (n + 1) m := by
  induction m with
  | zero => rw [span, span, span, Nat.add_zero, nil_append, append_nil]
  | succ m ih =>
    rw [span, ih, append_assoc]
    congr 3
    omega

theorem place_ne {m : Nat} (h : n ≠ m) (hlt : n < m + 4) (hlt' : m < n + 4) :
    n % fragments ≠ m % fragments := by
  rw [fragments]
  omega

theorem pred_eq (h : 0 < n) (h' : n < 4294967296) : pred n = n - 1 := by
  rw [pred, u32]
  omega

theorem fragment_update {s' : Sound} {m : Nat} {f : Nat → UInt8} (h : s'.ring = update s.ring m f)
    (n k : Nat) : s'.fragment n k = if n % fragments = m then f k else s.fragment n k := by
  rw [fragment, h, Function.update_apply, ite_apply]
  rfl

/-- The ring after an interrupt: the fragment that was played is silent. -/
theorem fragment_done (h : s.running = true) (hs : 0 < s.started)
    (hs' : s.started < 4294967296) (n k : Nat) : s.fragmentDone.fragment n k =
      if n % fragments = (s.started - 1) % fragments then 0 else s.fragment n k := by
  have hring : s.fragmentDone.ring = update s.ring (pred s.started % fragments) fun _ => 0 := by
    rw [fragmentDone, if_pos h]
  rw [fragment_update hring, pred_eq hs hs']

/-! ## Interrupts -/

variable (hr : s.running = true)
include hr

theorem limit_eq : s.limit = s.started + 3 := by rw [limit, if_pos hr]

/-- The writer is not behind a card that runs. -/
theorem Ahead.of_running (hbegun : 0 < s.started)
    (hle : s.started ≤ s.filled) (hroom : s.filled < s.started + 3 ∨ s.filled = s.started + 3 ∧ fill = 0)
    (hzero : ∀ n k, s.filled ≤ n → n < s.started + 3 → s.filled < n ∨ fill ≤ k → s.fragment n k = 0)
    (hpadded : Padded 0 (s.played ++ s.span s.started (s.filled - s.started) ++
      s.bytes s.filled fill) sent) : Ahead s fill sent := by
  rw [← limit_eq hr] at hroom hzero
  exact ⟨fun hf => (nomatch hr.symm.trans hf), fun _ => hbegun, hle, hroom, hzero, hpadded⟩

variable (hsmall : s.started + 4 < 4294967296)
include hsmall

theorem done_fields :
    s.fragmentDone.running = true ∧ s.fragmentDone.filled = s.filled ∧
      s.fragmentDone.started = s.started + 1 ∧
      s.fragmentDone.played = s.played ++ s.bytes s.started fragmentBytes := by
  rw [fragmentDone, if_pos hr]
  exact ⟨hr, rfl, u32_of_lt (by omega), rfl⟩

/-- After an interrupt, the fragment a ring ahead of the one that was played is silent. -/
theorem done_zero {k : Nat} (hs : 0 < s.started) (hhi : n < s.started + 4)
    (h : s.started < n → n < s.started + 3 → s.fragment n k = 0) (hlo : s.started < n) :
    s.fragmentDone.fragment n k = 0 := by
  rw [fragment_done hr hs (by omega)]
  split
  next => rfl
  next hne =>
    refine h hlo ?_
    by_contra hge
    have : n = s.started - 1 + 4 := by omega
    rw [this, fragments, Nat.add_mod_right] at hne
    exact hne rfl

/-- The card begins a fragment that was filled. -/
theorem Ahead.done (h : Ahead s fill sent) (hlt : s.started < s.filled) :
    Ahead s.fragmentDone fill sent := by
  have hbegun := h.begun hr
  have hroom := h.room
  have hp := h.padded
  rw [limit_eq hr] at hroom
  obtain ⟨hrun, hfill, hstart, hplayed⟩ := done_fields hr hsmall
  have hsame : ∀ n k, s.started < n → n < s.started + 3 →
      s.fragmentDone.fragment n k = s.fragment n k := fun n k hlo hhi => by
    rw [fragment_done hr hbegun (by omega), if_neg (place_ne (by omega) (by omega) (by omega))]
  refine .of_running hrun (by omega) (by omega) (by omega) (fun n k hlo hhi hor => ?_) ?_
  · rw [hfill] at hlo hor
    refine done_zero hr hsmall hbegun (by omega) (fun _ hhi' => h.zero n k hlo ?_ hor) (by omega)
    rw [limit_eq hr]
    exact hhi'
  · have hlast : s.fragmentDone.bytes s.filled fill = s.bytes s.filled fill := by
      rcases hroom with hlt' | ⟨-, rfl⟩
      · exact bytes_congr fun k _ => hsame s.filled k hlt hlt'
      · rfl
    have hspan : s.span s.started (s.filled - s.started) =
        s.bytes s.started fragmentBytes ++ s.span (s.started + 1) (s.filled - (s.started + 1)) := by
      rw [← span_cons]
      congr 1
      omega
    rw [hspan, ← append_assoc] at hp
    rw [hplayed, hfill, hstart, hlast,
      span_congr fun i k hi hi' => hsame i k (by omega) (by omega)]
    exact hp

/-- The card begins the fragment that is filled. -/
theorem Ahead.catchUp (h : Ahead s fill sent) (heq : s.started = s.filled)
    (hfill : fill ≤ fragmentBytes) : Behind s.fragmentDone sent := by
  have hbegun := h.begun hr
  have hp := h.padded
  rw [heq, Nat.sub_self, span, append_nil] at hp
  obtain ⟨hrun, hfilled, hstart, hplayed⟩ := done_fields hr hsmall
  refine ⟨hrun, ?_, fun n k hlo hhi => ?_, fun hlt => ?_, ?_⟩
  · rw [hfilled, hstart, heq]
    exact Nat.lt_succ_self _
  · refine done_zero hr hsmall hbegun (by omega) (fun hlo' hhi' => ?_) (by omega)
    refine h.zero n k (by omega) ?_ (.inl (by omega))
    rw [limit_eq hr]
    exact hhi'
  · omega
  · obtain ⟨m, hm⟩ := Nat.exists_eq_add_of_le hfill
    have hroom : s.filled < s.limit := by
      rw [limit_eq hr]
      omega
    rw [hplayed, heq, hm, bytes_padded fun k hk => h.zero _ k le_rfl hroom (.inr hk),
      ← append_assoc]
    exact hp.append_replicate m

omit hr in
/-- The card plays silence. -/
theorem Behind.done (h : Behind s sent) : Behind s.fragmentDone sent := by
  have hr := h.running
  have hlt := h.lt
  obtain ⟨hrun, hfilled, hstart, hplayed⟩ := done_fields hr hsmall
  have hzero : ∀ n k, s.started < n → n < s.started + 4 → s.fragmentDone.fragment n k = 0 :=
    fun n k hlo hhi =>
      done_zero hr hsmall (by omega) hhi (fun hlo' hhi' => h.zero n k (by omega) hhi') hlo
  refine ⟨hrun, ?_, fun n k hlo hhi => ?_, fun _ n k => ?_, ?_⟩
  · omega
  · exact hzero n k (by omega) (by omega)
  · -- the fragment now begun was silent before, and the other three are so now
    rw [fragment_done hr (by omega) (by omega)]
    split
    next => rfl
    next hne =>
      obtain ⟨m, hm, hm', hmod⟩ : ∃ m, s.started ≤ m ∧ m < s.started + 3 ∧
          m % fragments = n % fragments := by
        rw [fragments] at hne ⊢
        refine ⟨s.started + (n + 4 - s.started % 4) % 4, by omega, by omega, by omega⟩
      have := h.zero m k hm hm'
      rwa [fragment, hmod] at this
  · rw [hplayed, bytes_zero fun k => h.zero s.started k le_rfl (by omega)]
    exact h.padded.append_replicate _

omit hr hsmall

/-! ## The writer's steps -/

theorem Ahead.carry_eq (h : Ahead s fill sent) : s.carry = s :=
  if_neg fun ⟨_, hlt⟩ => absurd hlt (not_lt.mpr h.le)

theorem Behind.carry (h : Behind s sent) (hoffset : s.started = s.filled + 1 → s.offset = 0) :
    Ahead s.carry s.offset sent ∧ s.carry.filled < s.carry.limit := by
  have hr := h.running
  have hlt := h.lt
  have hzero : ∀ n k, s.started ≤ n → n < s.started + 3 → s.carry.fragment n k = 0 := by
    intro n k hlo hhi
    rw [Sound.carry, if_pos ⟨hr, hlt⟩, fragment]
    dsimp only
    split
    next hcopy =>
      have hquiet := h.quiet (by omega)
      rw [Function.update_apply, ite_apply]
      split
      next =>
        split
        next => exact hquiet s.filled k
        next => exact hquiet s.started k
      next => exact hquiet n k
    next => exact h.zero n k hlo hhi
  obtain ⟨hrun, hstart, hfilled, hplayed⟩ : s.carry.running = true ∧ s.carry.started = s.started ∧
      s.carry.filled = s.started ∧ s.carry.played = s.played := by
    rw [Sound.carry, if_pos ⟨hr, hlt⟩]
    exact ⟨hr, rfl, rfl, rfl⟩
  refine ⟨.of_running hrun (by omega) (by omega) (.inl (by omega)) (fun n k hlo hhi _ => ?_) ?_, ?_⟩
  · exact hzero n k (by omega) (by omega)
  · rw [hfilled, hstart, hplayed, Nat.sub_self, span, append_nil,
      bytes_zero fun k => hzero s.started k le_rfl (by omega)]
    exact h.padded.append_replicate _
  · rw [limit_eq hrun]
    omega

theorem map_getD_range (bs : List UInt8) :
    (List.range bs.length).map (fun k => bs.getD k 0) = bs := by
  refine ext_getElem (by rw [length_map, length_range]) fun i hi hi' => ?_
  rw [getElem_map, getElem_range, getD_eq_getElem?_getD, getElem?_eq_getElem hi', Option.getD_some]

theorem fragment_put (pos : Nat) (bs : List UInt8) (n k : Nat) : (s.put pos bs).fragment n k =
      if n % fragments = s.filled % fragments ∧ pos ≤ k ∧ k < pos + bs.length then
        bs.getD (k - pos) 0
      else s.fragment n k := by
  rw [ite_and, fragment_update (s := s) rfl]
  refine ite_congr rfl (fun hn => ?_) fun _ => rfl
  rw [fragment, fragment, hn]

section

variable (h : Ahead s fill sent) (hroom : s.filled < s.limit)
include h hroom

/-- In front of the limit, the fragments of the window are in different places. -/
theorem Ahead.window (hlo : s.started ≤ n) (hhi : n < s.limit) (hne : n ≠ s.filled) :
    n % fragments ≠ s.filled % fragments := by
  have hle := h.le
  by_cases hr : s.running = true
  · rw [limit_eq hr] at hroom hhi
    exact place_ne hne (by omega) (by omega)
  · rw [(h.first (Bool.eq_false_iff.mpr hr)).2] at hne ⊢
    rw [limit, if_neg hr] at hhi
    exact place_ne hne (by omega) (by omega)

theorem Ahead.put (bs : List UInt8) : Ahead (s.put fill bs) (fill + bs.length) (sent ++ bs) := by
  have hother : ∀ n k, s.started ≤ n → n < s.limit → n ≠ s.filled →
      (s.put fill bs).fragment n k = s.fragment n k := fun n k hlo hhi hne => by
    rw [fragment_put, if_neg fun hand => h.window hroom hlo hhi hne hand.1]
  have hzero : ∀ n k, s.filled ≤ n → n < s.limit → s.filled < n ∨ fill + bs.length ≤ k →
      (s.put fill bs).fragment n k = 0 := by
    intro n k hlo hhi hor
    by_cases hn : n = s.filled
    · rw [fragment_put, if_neg (by omega)]
      exact h.zero n k hlo hhi (.inr (by omega))
    · rw [hother n k (le_trans h.le hlo) hhi hn]
      exact h.zero n k hlo hhi (.inl (by omega))
  refine ⟨h.first, h.begun, h.le, .inl hroom, hzero, ?_⟩
  · have hspan : (s.put fill bs).span s.started (s.filled - s.started) =
        s.span s.started (s.filled - s.started) := span_congr fun i k hi hi' =>
      hother i k hi (by omega) (by omega)
    have hold : (s.put fill bs).bytes s.filled fill = s.bytes s.filled fill :=
      bytes_congr fun k hk => by rw [fragment_put, if_neg (by omega)]
    have hnew : (range bs.length).map (fun k => (s.put fill bs).fragment s.filled (fill + k)) =
        bs := by
      refine .trans (map_congr_left fun k hk => ?_) (map_getD_range bs)
      have := mem_range.mp hk
      rw [fragment_put, if_pos ⟨rfl, by omega, by omega⟩, Nat.add_sub_cancel_left]
    show Padded 0 (s.played ++ (s.put fill bs).span s.started (s.filled - s.started) ++
      (s.put fill bs).bytes s.filled (fill + bs.length)) (sent ++ bs)
    rw [hspan, bytes_add, hold, hnew, ← append_assoc]
    exact h.padded.append (.refl bs)

theorem Ahead.widen {fill' : Nat} (hle : fill ≤ fill') : Ahead s fill' sent := by
  obtain ⟨m, rfl⟩ := Nat.exists_eq_add_of_le hle
  refine ⟨h.first, h.begun, h.le, .inl hroom, fun n k hlo hhi hor => ?_, ?_⟩
  · exact h.zero n k hlo hhi (hor.imp_right fun hk => by omega)
  · rw [bytes_padded fun k hk => h.zero _ k le_rfl hroom (.inr hk), ← append_assoc]
    exact h.padded.append_replicate m

end

theorem Ahead.complete (h : Ahead s fragmentBytes sent) (hroom : s.filled < s.limit)
    (hsmall : s.started + 4 ≤ 4294967296) : Ahead s.complete 0 sent := by
  have hp := h.padded
  rw [Sound.complete]
  by_cases hr : s.running = true
  · have hle := h.le
    rw [limit_eq hr] at hroom
    rw [if_pos hr, u32_of_lt (by omega)]
    refine .of_running hr (h.begun hr) (by dsimp only; omega) (by dsimp only; omega)
      (fun n k hlo hhi _ => ?_) ?_
    · exact h.zero n k (Nat.le_of_succ_le hlo) ((limit_eq hr).symm ▸ hhi) (.inl hlo)
    · have hspan : span { s with filled := s.filled + 1, offset := 0 } s.started
          (s.filled + 1 - s.started) =
          s.span s.started (s.filled - s.started) ++ s.bytes s.filled fragmentBytes := by
        rw [show s.filled + 1 - s.started = (s.filled - s.started) + 1 by omega, span,
          show s.started + (s.filled - s.started) = s.filled by omega,
          span_ring (s := s)] <;> rfl
      rw [hspan, ← append_assoc]
      exact append_nil _ ▸ hp
  · obtain ⟨hzero, hfirst⟩ := h.first (Bool.eq_false_iff.mpr hr)
    rw [hzero, hfirst, span, append_nil] at hp
    rw [if_neg hr, hfirst]
    refine ⟨nofun, fun _ => one_pos, le_rfl, .inl ?_, fun n k hlo hhi _ => ?_, ?_⟩
    · show 1 < 1 + 3
      decide
    · refine h.zero n k (by rw [hfirst]; exact Nat.zero_le _) ?_ (.inl (by rw [hfirst]; exact hlo))
      rw [limit, if_neg hr]
      exact hhi
    · show Padded 0 (s.played ++ s.bytes 0 fragmentBytes ++ [] ++ []) sent
      rw [append_nil, append_nil]
      exact hp

/-- The card may have begun the fragment just before it is counted. -/
theorem Behind.complete (h : Behind s sent) (hsmall : s.started + 4 ≤ 4294967296) :
    Ahead s.complete 0 sent ∨ Behind s.complete sent := by
  have hr := h.running
  have hlt := h.lt
  rw [Sound.complete]
  rw [if_pos hr, u32_of_lt (by omega)]
  by_cases heq : s.filled + 1 = s.started
  · left
    refine .of_running hr (lt_of_le_of_lt (Nat.zero_le _) hlt) (le_of_eq heq.symm)
      (by dsimp only; omega) (fun n k hlo hhi _ => ?_) ?_
    · exact h.zero n k (by rw [← heq]; exact hlo) hhi
    · rw [heq, Nat.sub_self, span, append_nil]
      exact append_nil _ ▸ h.padded
  · right
    exact ⟨hr, by dsimp only; omega, h.zero, fun _ => h.quiet (by omega), h.padded⟩

theorem refill_eq {f : Nat → UInt8} (h : ∀ i, f i = s.fragment s.filled i) :
    { s with ring := update s.ring (s.filled % fragments) f } = s := by
  rw [funext h, fragment, Function.update_eq_self]

/-- The bytes that are silenced at the end are silent already. -/
theorem silenceRest_eq (h : ∀ k, s.offset ≤ k → s.fragment s.filled k = 0) : s.silenceRest = s := by
  refine refill_eq fun i => ?_
  split
  next hi => exact (h i hi.1).symm
  next => rfl

/-! ## Runs -/

/-- What was sent is played or in the ring. -/
def InRing (s : Sound) (fill : Nat) (sent : List UInt8) : Prop := Ahead s fill sent ∨ Behind s sent

theorem InRing.done (h : InRing s fill sent) (hfill : fill ≤ fragmentBytes)
    (hsmall : s.started + 4 < 4294967296) : InRing s.fragmentDone fill sent := by
  rcases h with h | h
  · by_cases hr : s.running = true
    · rcases Nat.lt_or_eq_of_le h.le with hlt | heq
      · exact .inl (h.done hr hsmall hlt)
      · exact .inr (h.catchUp hr hsmall heq hfill)
    · rw [fragmentDone, if_neg hr]
      exact .inl h
  · exact .inr (h.done hsmall)

theorem InRing.complete (h : InRing s fill sent) (hpos : 0 < fill) (hfill : fill ≤ fragmentBytes)
    (hsmall : s.started + 4 ≤ 4294967296) : InRing s.complete 0 sent := by
  rcases h with h | h
  · have hroom : s.filled < s.limit := h.room.resolve_right fun hand => by omega
    exact .inl ((h.widen hroom hfill).complete hroom hsmall)
  · exact h.complete hsmall

theorem InRing.setOffset (h : InRing s fill sent) (offset : Nat) :
    InRing { s with offset } fill sent := by
  rcases h with h | h
  · left
    refine ⟨h.first, h.begun, h.le, h.room, h.zero, ?_⟩
    rw [span_ring (s := s)]
    exacts [h.padded, rfl]
  · exact .inr { h with }

theorem put_nil (pos : Nat) : s.put pos [] = s :=
  refill_eq fun i => if_neg (by rw [length_nil]; omega)

theorem InRing.silenceRest (h : InRing s s.offset sent) (hpos : 0 < s.offset) :
    InRing s.silenceRest s.offset sent := by
  rcases h with h | h
  · have hroom : s.filled < s.limit := h.room.resolve_right fun hand => by omega
    rw [silenceRest_eq fun k hk => h.zero s.filled k le_rfl hroom (.inr hk)]
    exact .inl h
  · have hring : ∀ n k, s.fragment n k = 0 → s.silenceRest.fragment n k = 0 := by
      intro n k hz
      rw [fragment_update (s := s) rfl]
      split
      next hn =>
        rw [fragment, ← hn]
        exact ite_eq_left_iff.mpr fun _ => hz
      next => exact hz
    exact .inr ⟨h.running, h.lt, fun n k hlo hhi => hring n k (h.zero n k hlo hhi),
      fun hlt n k => hring n k (h.quiet hlt n k), h.padded⟩

/-- Nothing is left of what was sent, and the ring is silent. -/
theorem Ahead.stop (h : Padded 0 s.played sent) : Ahead s.stop 0 sent := by
  refine ⟨fun _ => ⟨rfl, rfl⟩, nofun, le_rfl, .inl (show 0 < 4 by decide), fun _ _ _ _ _ => rfl, ?_⟩
  exact (append_nil _).symm ▸ (append_nil s.played).symm ▸ h

end Sound

open Sound (InRing Ahead Behind)

/-- What the writer has still to copy. -/
def Writer.todo : Writer → List UInt8
  | .loop rest => rest
  | .copy k chunk rest => chunk.drop k ++ rest
  | _ => []

/-- The number of bytes in the fragment that is filled. -/
def Writer.count (offset : Nat) : Writer → Nat
  | .copy k _ _ => offset + k
  | .waiting | .closed => 0
  | .idle | .loop _ | .closing => offset

/-- While bytes are copied, the card has not begun the fragment that they go to. -/
def Writer.Fits (s : Sound) : Writer → Prop
  | .idle | .loop _ => s.offset < fragmentBytes
  | .copy k chunk _ => s.offset + chunk.length ≤ fragmentBytes ∧ k ≤ chunk.length ∧
      (k < chunk.length → s.started ≤ s.filled ∧ s.filled < s.limit)
  | .closing => 0 < s.offset ∧ s.offset ≤ fragmentBytes
  | .waiting => s.running = true
  | .closed => s.running = false

def Inv : State → Prop
  | ⟨s, writer, written⟩ => s.started + 4 ≤ 4294967296 ∧ writer.Fits s ∧
      ∃ sent, written = sent ++ writer.todo ∧ InRing s (writer.count s.offset) sent

variable {writer : Writer} {written : List UInt8} {st st' : State}

theorem not_full (h : Ahead s fill sent) (hsmall : s.started + 4 ≤ 4294967296)
    (hf : s.full = false) : s.filled < s.limit := by
  by_cases hr : s.running = true
  · have hbegun := h.begun hr
    rw [Sound.full, hr, Bool.true_and, decide_eq_false_iff_not, Sound.pred_eq hbegun (by omega),
      u32_of_lt (by rw [fragments]; omega), fragments] at hf
    rw [Sound.limit_eq hr]
    omega
  · rw [(h.first (Bool.eq_false_iff.mpr hr)).2, Sound.limit, if_neg hr]
    decide

theorem carry_same (s : Sound) : s.carry.offset = s.offset ∧ s.carry.started = s.started := by
  rw [Sound.carry]
  split <;> exact ⟨rfl, rfl⟩

theorem complete_fields (h : s.started + 4 ≤ 4294967296) :
    s.complete.offset = 0 ∧ s.complete.running = true ∧
      s.complete.started + 4 ≤ 4294967296 := by
  rw [Sound.complete]
  split
  next hr => exact ⟨rfl, hr, h⟩
  next => exact ⟨rfl, rfl, show 1 + 4 ≤ 4294967296 by decide⟩

theorem done_same (s : Sound) : s.fragmentDone.offset = s.offset ∧
    s.fragmentDone.running = s.running := by
  rw [Sound.fragmentDone]
  split <;> exact ⟨rfl, rfl⟩

theorem Writer.Fits.count_le (h : writer.Fits s) : writer.count s.offset ≤ fragmentBytes := by
  cases writer with
  | idle | loop => exact le_of_lt h
  | copy k chunk rest => exact le_trans (Nat.add_le_add_left h.2.1 _) h.1
  | closing => exact h.2
  | waiting | closed => exact Nat.zero_le _

section

variable (h : Inv ⟨s, writer, written⟩)
include h

theorem Inv.check (ht : Timely ⟨s, writer, written⟩ .check)
    (hs : State.step ⟨s, writer, written⟩ .check = some st') : Inv st' := by
  cases writer with
  | loop rest =>
    obtain ⟨hsmall, hoffset, sent, hwritten, hring⟩ := h
    obtain ⟨hsame, hstart⟩ := carry_same s
    simp only [State.step] at hs
    split at hs
    next hrest =>
      cases hs
      exact ⟨hsmall, hoffset, sent, hwritten.trans (congrArg _ hrest), hring⟩
    next hrest =>
      obtain ⟨hfull, ⟨⟩⟩ := Option.ite_none_left_eq_some.mp hs
      have hcarry : Ahead s.carry s.offset sent ∧ s.carry.filled < s.carry.limit := by
        rcases hring with hring | hring
        · rw [hring.carry_eq]
          exact ⟨hring, not_full hring hsmall (Bool.eq_false_iff.mpr hfull)⟩
        · exact hring.carry (ht rest rfl hrest hring.running)
      refine ⟨hstart ▸ hsmall, ⟨?_, Nat.zero_le _, fun _ => ⟨hcarry.1.le, hcarry.2⟩⟩, sent, ?_,
        .inl (hsame.symm ▸ hcarry.1)⟩
      · have hoffset : s.offset < fragmentBytes := hoffset
        rw [length_take]
        omega
      · rw [Writer.todo, drop_zero, take_append_drop]
        exact hwritten
  | _ => cases hs

theorem Inv.copy {j : Nat} (hs : State.step ⟨s, writer, written⟩ (.copy j) = some st') : Inv st' := by
  cases writer with
  | copy k chunk rest =>
    obtain ⟨hsmall, ⟨hoffset, hk, hroom⟩, sent, hwritten, hring⟩ := h
    obtain ⟨hj, ⟨⟩⟩ := Option.ite_none_right_eq_some.mp hs
    refine ⟨hsmall, ⟨hoffset, hj, fun hlt => hroom (by omega)⟩, sent ++ (chunk.drop k).take j,
      ?_, ?_⟩
    · rw [hwritten, Writer.todo, Writer.todo, ← drop_drop, append_assoc,
        ← append_assoc ((chunk.drop k).take j), take_append_drop]
    · rcases Nat.eq_zero_or_pos j with rfl | hpos
      · rw [take_zero, Sound.put_nil, append_nil]
        exact hring
      · obtain ⟨hle, hroom⟩ := hroom (by omega)
        have hput := (hring.resolve_right fun hb => absurd hb.lt (not_lt.mpr hle)).put hroom
          ((chunk.drop k).take j)
        rw [length_take, length_drop, Nat.min_eq_left (by omega), Writer.count, Nat.add_assoc] at hput
        exact .inl hput
  | _ => cases hs

theorem Inv.finish (hs : State.step ⟨s, writer, written⟩ .finish = some st') : Inv st' := by
  cases writer with
  | copy k chunk rest =>
    obtain ⟨hsmall, ⟨hoffset, -, -⟩, sent, hwritten, hring⟩ := h
    obtain ⟨hk, ⟨⟩⟩ := Option.ite_none_right_eq_some.mp hs
    rw [Writer.todo, hk, drop_length] at hwritten
    rw [Writer.count, hk] at hring
    have hset := hring.setOffset (s.offset + chunk.length)
    rw [fragmentBytes] at hoffset
    dsimp only
    rw [Sound.advance, u32_of_lt (by omega)]
    dsimp only
    split
    next hfull =>
      rw [hfull] at hset ⊢
      obtain ⟨hzero, -, hsmall'⟩ := complete_fields (s := { s with offset := fragmentBytes }) hsmall
      refine ⟨hsmall', ?_, sent, hwritten, ?_⟩
      · rw [Writer.Fits, hzero]
        decide
      · rw [Writer.count, hzero]
        exact hset.complete (by decide) le_rfl hsmall
    next hpart => exact ⟨hsmall, lt_of_le_of_ne hoffset hpart, sent, hwritten, hset⟩
  | _ => cases hs

theorem Inv.close (hs : State.step ⟨s, writer, written⟩ .close = some st') : Inv st' := by
  cases writer with
  | idle =>
    obtain ⟨hsmall, hoffset, sent, hwritten, hring⟩ := h
    simp only [State.step] at hs
    split at hs
    next hne =>
      cases hs
      have hpos := Nat.pos_of_ne_zero hne
      exact ⟨hsmall, ⟨hpos, le_of_lt hoffset⟩, sent, hwritten, hring.silenceRest hpos⟩
    next hzero =>
      rw [Writer.count, not_ne_iff.mp hzero] at hring
      split at hs
      next hr =>
        cases hs
        exact ⟨hsmall, hr, sent, hwritten, hring⟩
      next hr =>
        cases hs
        exact ⟨hsmall, Bool.eq_false_iff.mpr hr, sent, hwritten, hring⟩
  | _ => cases hs

theorem Inv.closeFill (hs : State.step ⟨s, writer, written⟩ .closeFill = some st') : Inv st' := by
  cases writer with
  | closing =>
    obtain ⟨hsmall, ⟨hpos, hle⟩, sent, hwritten, hring⟩ := h
    cases hs
    obtain ⟨-, hr, hsmall'⟩ := complete_fields hsmall
    exact ⟨hsmall', hr, sent, hwritten, hring.complete hpos hle hsmall⟩
  | _ => cases hs

theorem Inv.stop (hs : State.step ⟨s, writer, written⟩ .stop = some st') : Inv st' := by
  cases writer with
  | waiting =>
    obtain ⟨-, hr, sent, hwritten, hring⟩ := h
    obtain ⟨hover, ⟨⟩⟩ := Option.ite_none_left_eq_some.mp hs
    have hbehind := hring.resolve_left fun hring => hover ⟨hr, hring.le⟩
    exact ⟨show 0 + 4 ≤ 4294967296 by decide, rfl, sent, hwritten, .inl (.stop hbehind.padded)⟩
  | _ => cases hs

theorem Inv.done (ht : Timely ⟨s, writer, written⟩ .done) :
    Inv ⟨s.fragmentDone, writer, written⟩ := by
  obtain ⟨-, hfits, sent, hwritten, hring⟩ := h
  obtain ⟨hsmall, hcopy⟩ := ht
  obtain ⟨hoff, hrun⟩ := done_same s
  have hsmall' : s.fragmentDone.started + 4 ≤ 4294967296 := by
    rw [Sound.fragmentDone]
    dsimp only at hsmall
    split
    next =>
      dsimp only
      rw [u32_of_lt (by omega)]
      omega
    next => omega
  refine ⟨hsmall', ?_, sent, hwritten, hoff.symm ▸ hring.done hfits.count_le hsmall⟩
  cases writer with
  | idle | loop | closing =>
    rw [Writer.Fits, hoff]
    exact hfits
  | waiting | closed => exact hrun.trans hfits
  | copy k chunk rest =>
    obtain ⟨hoffset, hk, hroom⟩ := hfits
    refine ⟨hoff.symm ▸ hoffset, hk, fun hlt => ?_⟩
    have hroom := hroom hlt
    by_cases hr : s.running = true
    · -- the card begins another fragment
      have hne : s.started ≠ s.filled := fun heq =>
        Bool.eq_false_iff.mp (hcopy k chunk rest rfl hlt heq) hr
      obtain ⟨hrun', hfilled, hstart, -⟩ := Sound.done_fields hr hsmall
      rw [Sound.limit_eq hr] at hroom
      rw [Sound.limit_eq hrun', hfilled, hstart]
      omega
    · rw [Sound.fragmentDone, if_neg hr]
      exact hroom

theorem Inv.write {w : List UInt8} (hs : State.step ⟨s, writer, written⟩ (.write w) = some st') :
    Inv st' := by
  cases writer with
  | idle =>
    cases hs
    obtain ⟨hsmall, hoffset, sent, rfl, hring⟩ := h
    exact ⟨hsmall, hoffset, sent, congrArg (· ++ w) (append_nil sent), hring⟩
  | _ => cases hs

end

/-- The card plays what was written, in order and with silence in between.  What is left is
in the ring or in the writer's hands; after the device was closed there is none, nor while
the card is ahead of a writer that has nothing to do. -/
theorem audio_run (h : Lib.Reached TimelyStep opened st) :
    ∃ w₁ w₂, st.written = w₁ ++ w₂ ∧ Padded 0 st.sound.played w₁ ∧
      (st.writer = .closed ∨
        st.writer = .idle ∧ st.sound.running = true ∧ st.sound.filled < st.sound.started →
        w₂ = []) := by
  have hopened : Inv opened :=
    ⟨by decide, show 0 < 4096 by decide, [], rfl, .inl (Ahead.stop (s := opened.sound) .nil)⟩
  have hinv : Inv st := by
    refine h.invariant hopened ?_
    rintro a ⟨s, writer, written⟩ st' hinv ⟨ht, hs⟩
    cases a with
    | write w => exact hinv.write hs
    | check => exact hinv.check ht hs
    | copy j => exact hinv.copy hs
    | finish => exact hinv.finish hs
    | close => exact hinv.close hs
    | closeFill => exact hinv.closeFill hs
    | stop => exact hinv.stop hs
    | done =>
      cases hs
      exact hinv.done ht
  obtain ⟨s, writer, written⟩ := st
  obtain ⟨-, hfits, sent, hwritten, hring⟩ := hinv
  rcases hring with hring | hring
  · have hp := hring.padded
    by_cases hclosed : writer = .closed
    · subst hclosed
      obtain ⟨hzero, hfirst⟩ := hring.first hfits
      rw [hzero, hfirst, Sound.span, append_nil] at hp
      exact ⟨sent, [], hwritten, append_nil s.played ▸ hp, fun _ => rfl⟩
    · rw [append_assoc] at hp
      obtain ⟨w₁, w₂, rfl, hplayed, -⟩ := hp.split
      refine ⟨w₁, w₂ ++ writer.todo, hwritten.trans (append_assoc ..), hplayed, ?_⟩
      rintro (hc | ⟨-, -, hlt⟩)
      · exact absurd hc hclosed
      · exact absurd hlt (not_lt.mpr hring.le)
  · refine ⟨sent, writer.todo, hwritten, hring.padded, ?_⟩
    rintro (rfl | ⟨rfl, -, -⟩)
    · cases hring.running.symm.trans hfits
    · rfl

/-- Until the card runs, and once the writer only waits for it, no step comes too late. -/
theorem timely_step {a : Act} (hr : st.sound.running = false ∨ st.writer = .waiting)
    (hsmall : st.sound.started + 4 < 4294967296) (hs : st.step a = some st') :
    TimelyStep a st st' := by
  refine ⟨?_, hs⟩
  cases a with
  | done => exact ⟨hsmall, fun k chunk rest hw _ _ => by simpa [hw] using hr⟩
  | check =>
    intro rest hw _ hr'
    simp [hw, hr'] at hr
  | write | copy | finish | close | closeFill | stop => trivial

/-- One byte is written and the device closed, which starts the card.  The card has played the
byte when it begins the next fragment. -/
theorem audio_run_byte : ∃ st, Lib.Reached TimelyStep opened st ∧ st.writer = .closed ∧
      st.written = [7] ∧ st.sound.played.length = 8192 ∧ Padded 0 st.sound.played [7] := by
  have hrun : (Lib.follow (fun a st => if (st.sound.running = false ∨ st.writer = .waiting) ∧
      st.sound.started + 4 < 4294967296 then st.step a else none)
      [.write [7], .check, .copy 1, .finish, .check, .close, .closeFill, .done, .stop] opened).map
      (fun st => (st.writer, st.written, st.sound.played.length)) = some (.closed, [7], 8192) := by
    decide +kernel
  obtain ⟨st, hst, heq⟩ := Option.map_eq_some_iff.mp hrun
  obtain ⟨hw, hseven, hlen⟩ : st.writer = .closed ∧ st.written = [7] ∧
      st.sound.played.length = 8192 := by simpa only [Prod.mk.injEq] using heq
  have hreached : Lib.Reached TimelyStep opened st := by
    refine .follow (fun a s s' hs => ?_) .start hst
    split at hs
    next hcond => exact timely_step hcond.1 hcond.2 hs
    next => cases hs
  obtain ⟨w₁, w₂, hwritten, hplayed, hall⟩ := audio_run hreached
  rw [hall (.inl hw), append_nil] at hwritten
  refine ⟨st, hreached, hw, hseven, hlen, ?_⟩
  rw [← hseven, hwritten]
  exact hplayed

/-- Four KiB of silence, a byte 1 and, when the card has begun the fragment of that byte, a
byte 2.  The byte 1 is played twice. -/
theorem byte_played_twice : ∃ st, Lib.follow (fun a st => st.step a)
        [.write (List.replicate 4096 0), .check, .copy 4096, .finish, .check, .write [1], .check,
          .copy 1, .finish, .check, .done, .write [2], .check, .copy 1, .finish, .check, .done]
        opened = some st ∧ st.written.count 1 = 1 ∧
      ∀ w₁ w₂, st.written = w₁ ++ w₂ → ¬ Padded 0 st.sound.played w₁ := by
  have hrun : (Lib.follow (fun a st => st.step a)
      [.write (replicate 4096 0), .check, .copy 4096, .finish, .check, .write [1], .check,
        .copy 1, .finish, .check, .done, .write [2], .check, .copy 1, .finish, .check, .done]
      opened).map (fun st => (st.written.count 1, st.sound.played[4096]?,
        st.sound.played[8192]?)) = some (1, some 1, some 1) := by decide +kernel
  obtain ⟨st, hst, heq⟩ := Option.map_eq_some_iff.mp hrun
  obtain ⟨hcount, hfirst, hsecond⟩ : st.written.count 1 = 1 ∧ st.sound.played[4096]? = some 1 ∧
      st.sound.played[8192]? = some 1 := by simpa only [Prod.mk.injEq] using heq
  refine ⟨st, hst, hcount, fun w₁ w₂ hwritten hpadded => ?_⟩
  obtain ⟨h1, hget1⟩ := List.getElem?_eq_some_iff.mp hfirst
  obtain ⟨h2, hget2⟩ := List.getElem?_eq_some_iff.mp hsecond
  have htwo : 2 ≤ st.sound.played.count 1 := by
    refine duplicate_iff_two_le_count.mp (duplicate_iff_exists_distinct_get.mpr ?_)
    exact ⟨⟨4096, h1⟩, ⟨8192, h2⟩, by simp, hget1.symm, hget2.symm⟩
  rw [hwritten, count_append] at hcount
  rw [hpadded.count_eq (by decide)] at htwo
  omega

end ManiOS.Audio
