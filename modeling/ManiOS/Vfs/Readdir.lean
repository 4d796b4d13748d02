import Mathlib.Data.List.Forall2
import ManiOS.Base

/-!
# Listing a directory

An open directory is a union of members, listed one after another.  The file
remembers the member it is in, the next entry there, and the number of that entry
in the whole listing; `vfs_readdir` moves all three, and `vfs_readdir_at` starts
over or skips entries to get to the one it is asked for.

Wherever a sequence of calls leaves the cursors, they stand before an entry of
the members' listings, one after another (`Cursors.Before`).  The number they
keep of it has 32 bits: a union of more entries than that has two of one number.
-/

namespace ManiOS.Vfs.Readdir

open List

/-! ## The code -/

/-- A vnode of a union, as far as it is listed: `ops->readdir`, if there is one. -/
structure Member where
  type : VnodeType
  readdir : Option (Nat → Except Errno (Option Dirent))

/-- What a member answers for the entry at an index. -/
def Member.entry (v : Member) (index : Nat) : Except Errno (Option Dirent) :=
  match v.type, v.readdir with
  | .dir, some readdir => readdir index
  | _, _ => .ok none

/-- The cursors of an open directory. -/
structure Cursors where
  member : Nat
  index : Nat
  entry : Nat
deriving DecidableEq, Repr

/-- The cursors of a directory just opened, or after `vfs_seek` to 0. -/
def rewound : Cursors := ⟨0, 0, 0⟩

/-- The loop of `vfs_readdir`.  Each turn that does not return goes on to the next
member. -/
def nextFrom (v : List Member) : Nat → Cursors → Except Errno (Option Dirent) × Cursors
  | 0, c => (.ok none, c)
  | left + 1, c =>
    match v[c.member]? with
    | none => (.ok none, c)
    | some m =>
      match m.entry c.index with
      | .ok (some d) => (.ok (some d), { c with index := u32 (c.index + 1), entry := u32 (c.entry + 1) })
      | .error e => (.error e, c)
      | .ok none => nextFrom v left { c with member := c.member + 1, index := 0 }

def vfsReaddir (v : List Member) (c : Cursors) : Except Errno (Option Dirent) × Cursors :=
  if v.head?.map (·.type) ≠ some .dir then (.error .enotdir, c) else nextFrom v v.length c

/-- The loop of `vfs_readdir_at`, and the call after it.  Each turn moves on by
one entry. -/
def skipTo (v : List Member) (entry : Nat) : Nat → Cursors → Except Errno (Option Dirent) × Cursors
  | 0, c => vfsReaddir v c
  | left + 1, c =>
    if c.entry < entry then
      match vfsReaddir v c with
      | (.ok (some _), c) => skipTo v entry left c
      | (r, c) => (r, c)
    else vfsReaddir v c

def vfsReaddirAt (v : List Member) (c : Cursors) (entry : Nat) :
    Except Errno (Option Dirent) × Cursors :=
  let c := if entry < c.entry then rewound else c
  skipTo v entry (entry - c.entry) c

/-- The calls that move the cursors. -/
inductive Call where
  | readdirAt (entry : UInt32)
  | readdir
  | rewind

def after (v : List Member) (c : Cursors) : Call → Cursors
  | .readdirAt entry => (vfsReaddirAt v c entry.toNat).2
  | .readdir => (vfsReaddir v c).2
  | .rewind => rewound

/-! ## The listing -/

/-- The member shows these entries. -/
def Lists (m : Member) (l : List Dirent) : Prop :=
  l.length < 4294967296 ∧ ∀ i < 4294967296, m.entry i = .ok l[i]?

/-- The cursors are before entry number `n` of the listing. -/
structure Cursors.Before (ls : List (List Dirent)) (c : Cursors) (n : Nat) : Prop where
  rest : ls.flatten.drop n = (ls.drop c.member).flatten.drop c.index
  index : ∀ l, ls[c.member]? = some l → c.index ≤ l.length
  entry : c.entry = u32 n

section Listing

variable {v : List Member} {ls : List (List Dirent)} {c : Cursors} {n : Nat}

theorem rewound_before (ls : List (List Dirent)) : rewound.Before ls 0 :=
  ⟨rfl, fun _ _ => Nat.zero_le _, rfl⟩

theorem Cursors.Before.inside (h : c.Before ls n) {l : List Dirent} (hl : ls[c.member]? = some l)
    (hlt : c.index < l.length) (hlen : l.length < 4294967296) : ls.flatten[n]? = l[c.index]? ∧
      Before ls { c with index := u32 (c.index + 1), entry := u32 (c.entry + 1) } (n + 1) := by
  obtain ⟨hk, rfl⟩ := List.getElem?_eq_some_iff.mp hl
  have hrest := h.rest
  rw [drop_eq_getElem_cons hk, flatten_cons, drop_append_of_le_length (Nat.le_of_lt hlt)] at hrest
  have hidx : u32 (c.index + 1) = c.index + 1 := u32_of_lt (by omega)
  refine ⟨?_, ?_, fun l' hl' => ?_, ?_⟩
  · rw [← head?_drop, hrest, head?_append, head?_drop, getElem?_eq_getElem hlt]
    rfl
  · rw [← tail_drop, hrest, hidx, drop_eq_getElem_cons hk, flatten_cons,
      drop_append_of_le_length hlt]
    rw [drop_eq_getElem_cons hlt]
    rfl
  · rw [hl] at hl'
    cases hl'
    rw [hidx]
    exact hlt
  · rw [h.entry]
    exact Nat.mod_add_mod n 4294967296 1

/-- At the end of a member, the next entry is the first of the members after it. -/
theorem Cursors.Before.outside (h : c.Before ls n) {l : List Dirent} (hl : ls[c.member]? = some l)
    (hend : l.length ≤ c.index) : Before ls { c with member := c.member + 1, index := 0 } n := by
  obtain ⟨hk, rfl⟩ := List.getElem?_eq_some_iff.mp hl
  have hidx := Nat.le_antisymm (h.index _ hl) hend
  refine ⟨?_, fun _ _ => Nat.zero_le _, h.entry⟩
  rw [h.rest, drop_eq_getElem_cons hk, flatten_cons, hidx, drop_left]
  rfl

/-- The answer of a call, and where it leaves the cursors: past the entry, or at
the end. -/
def Answers (ls : List (List Dirent)) (n : Nat) (r : Except Errno (Option Dirent) × Cursors) : Prop :=
  r.1 = .ok ls.flatten[n]? ∧ r.2.Before ls (if n < ls.flatten.length then n + 1 else n)

theorem Cursors.Before.atEnd (h : c.Before ls n) (hend : ls.length ≤ c.member) :
    Answers ls n (.ok none, c) := by
  have hrest := h.rest
  rw [drop_eq_nil_of_le hend, flatten_nil, drop_nil, drop_eq_nil_iff] at hrest
  exact ⟨by rw [getElem?_eq_none hrest], by rw [if_neg (Nat.not_lt_of_le hrest)]; exact h⟩

theorem nextFrom_answers (hv : List.Forall₂ Lists v ls) (left : Nat)
    (hleft : v.length ≤ c.member + left) (h : c.Before ls n) : Answers ls n (nextFrom v left c) := by
  induction left generalizing c with
  | zero => exact h.atEnd (hv.length_eq ▸ hleft)
  | succ left ih =>
    unfold nextFrom
    split
    next hnone => exact h.atEnd (hv.length_eq ▸ getElem?_eq_none_iff.mp hnone)
    next m hm =>
      obtain ⟨hk, rfl⟩ := List.getElem?_eq_some_iff.mp hm
      have hk' : c.member < ls.length := hv.length_eq ▸ hk
      have hl := getElem?_eq_getElem hk'
      obtain ⟨hlen, hentry⟩ : Lists v[c.member] ls[c.member] := hv.get hk hk'
      generalize ls[c.member] = l at hl hlen hentry
      rw [hentry c.index (Nat.lt_of_le_of_lt (h.index l hl) hlen)]
      by_cases hlt : c.index < l.length
      · obtain ⟨heq, hnext⟩ := h.inside hl hlt hlen
        rw [getElem?_eq_getElem hlt] at heq ⊢
        have hn : n < ls.flatten.length := (List.getElem?_eq_some_iff.mp heq).1
        exact ⟨by rw [heq], by rw [if_pos hn]; exact hnext⟩
      · rw [getElem?_eq_none (Nat.le_of_not_lt hlt)]
        refine ih ?_ (h.outside hl (Nat.le_of_not_lt hlt))
        show v.length ≤ c.member + 1 + left
        omega

theorem vfsReaddir_answers (hv : List.Forall₂ Lists v ls) (hdir : v.head?.map (·.type) = some .dir)
    (h : c.Before ls n) : Answers ls n (vfsReaddir v c) := by
  rw [vfsReaddir, if_neg (not_not_intro hdir)]
  exact nextFrom_answers hv _ (Nat.le_add_left _ _) h

/-- The cursors are somewhere in the listing. -/
def Cursors.Within (ls : List (List Dirent)) (c : Cursors) : Prop :=
  ∃ n ≤ ls.flatten.length, c.Before ls n

theorem Answers.within {r : Except Errno (Option Dirent) × Cursors} (h : Answers ls n r)
    (hn : n ≤ ls.flatten.length) : r.2.Within ls := by
  refine ⟨_, ?_, h.2⟩
  split <;> omega

section

variable (hv : List.Forall₂ Lists v ls) (hdir : v.head?.map (·.type) = some .dir)
  (hfit : ls.flatten.length < 4294967296)
include hv hdir hfit

theorem skipTo_answers (left : Nat) (hn : n ≤ ls.flatten.length) (h : c.Before ls n) :
    (skipTo v (n + left) left c).1 = .ok ls.flatten[n + left]? ∧
      (skipTo v (n + left) left c).2.Within ls := by
  induction left generalizing c n with
  | zero =>
    have hnext := vfsReaddir_answers hv hdir h
    exact ⟨hnext.1, hnext.within hn⟩
  | succ left ih =>
    have hentry : c.entry < n + (left + 1) := by
      rw [h.entry, u32_of_lt (by omega)]
      omega
    have hnext := vfsReaddir_answers hv hdir h
    have hwithin := hnext.within hn
    rw [skipTo, if_pos hentry]
    obtain ⟨hr, hc⟩ := hnext
    cases hcall : vfsReaddir v c with
    | mk r c' =>
      rw [hcall] at hr hc hwithin
      obtain rfl : r = .ok ls.flatten[n]? := hr
      by_cases hlt : n < ls.flatten.length
      · rw [if_pos hlt] at hc
        have hsum : n + (left + 1) = n + 1 + left := by omega
        rw [hsum, getElem?_eq_getElem hlt]
        exact ih hlt hc
      · rw [getElem?_eq_none (by omega), getElem?_eq_none (by omega)]
        exact ⟨rfl, hwithin⟩

theorem vfsReaddirAt_answers (h : c.Within ls) (entry : Nat) :
    (vfsReaddirAt v c entry).1 = .ok ls.flatten[entry]? ∧ (vfsReaddirAt v c entry).2.Within ls := by
  have hstart : ∃ n ≤ ls.flatten.length, n ≤ entry ∧
      (if entry < c.entry then rewound else c).Before ls n := by
    obtain ⟨n, hn, hc⟩ := h
    split
    next => exact ⟨0, Nat.zero_le _, Nat.zero_le _, rewound_before ls⟩
    next hle =>
      rw [hc.entry, u32_of_lt (by omega)] at hle
      exact ⟨n, hn, Nat.le_of_not_lt hle, hc⟩
  obtain ⟨n, hn, hle, hc⟩ := hstart
  have hskip := skipTo_answers hv hdir hfit (entry - n) hn hc
  rw [Nat.add_sub_cancel' hle] at hskip
  unfold vfsReaddirAt
  dsimp only
  rwa [hc.entry, u32_of_lt (by omega)]

theorem after_within (h : c.Within ls) (call : Call) : (after v c call).Within ls := by
  cases call with
  | readdirAt entry => exact (vfsReaddirAt_answers hv hdir hfit h _).2
  | readdir =>
    obtain ⟨n, hn, hc⟩ := h
    exact (vfsReaddir_answers hv hdir hc).within hn
  | rewind => exact ⟨0, Nat.zero_le _, rewound_before ls⟩

end

end Listing

/-- Whatever calls were made before, `vfs_readdir_at` answers with the entry of
that number in the members' listings, one after another, or with 0 past the end,
if these have no more entries than there are numbers. -/
theorem readdir_at {v : List Member} {ls : List (List Dirent)} (hv : List.Forall₂ Lists v ls)
    (hdir : v.head?.map (·.type) = some .dir) (hfit : ls.flatten.length < 4294967296)
    (calls : List Call) (entry : UInt32) :
    (vfsReaddirAt v (calls.foldl (after v) rewound) entry.toNat).1 =
      .ok ls.flatten[entry.toNat]? := by
  have hwithin : ∀ c : Cursors, c.Within ls → (calls.foldl (after v) c).Within ls := by
    induction calls with
    | nil => exact fun c hc => hc
    | cons call calls ih => exact fun c hc => ih _ (after_within hv hdir hfit hc call)
  exact (vfsReaddirAt_answers hv hdir hfit (hwithin _ ⟨0, Nat.zero_le _, rewound_before ls⟩) _).1

/-! ## Two members -/

/-- A directory of some files of one name. -/
def shows (count : Nat) : Member :=
  ⟨.dir, some fun i => .ok (if i < count then some ⟨[97], .file, 0⟩ else none)⟩

theorem shows_lists {count : Nat} (h : count < 4294967296) :
    Lists (shows count) (List.replicate count ⟨[97], .file, 0⟩) :=
  ⟨by rwa [length_replicate], fun i _ => by rw [getElem?_replicate]; rfl⟩

theorem readdir_at_back :
    (vfsReaddirAt [shows 2, shows 1] ([.readdirAt 2, .readdir, .rewind, .readdir].foldl
      (after [shows 2, shows 1]) rewound) (2 : UInt32).toNat).1 = .ok (some ⟨[97], .file, 0⟩) :=
  have hlists : List.Forall₂ Lists [shows 2, shows 1]
      [replicate 2 ⟨[97], .file, 0⟩, replicate 1 ⟨[97], .file, 0⟩] :=
    .cons (shows_lists (by decide)) (.cons (shows_lists (by decide)) .nil)
  readdir_at hlists rfl (by decide) _ 2

theorem readdirs_before {v : List Member} {ls : List (List Dirent)} {c : Cursors}
    (hv : List.Forall₂ Lists v ls) (hdir : v.head?.map (·.type) = some .dir) (k : Nat) {n : Nat}
    (hn : n + k ≤ ls.flatten.length) (h : c.Before ls n) :
    ((List.replicate k Call.readdir).foldl (after v) c).Before ls (n + k) := by
  induction k generalizing c n with
  | zero => exact h
  | succ k ih =>
    have hnext := (vfsReaddir_answers hv hdir h).2
    rw [if_pos (by omega)] at hnext
    have hrest := ih (by omega) hnext
    rwa [Nat.add_assoc, Nat.add_comm 1 k] at hrest

/-- With as many entries as there are numbers, the end has the number of the
first: after all were read, entry 0 is not found. -/
theorem entry_zero_lost : (vfsReaddirAt [shows 4294967295, shows 1]
      ((List.replicate 4294967296 Call.readdir).foldl (after [shows 4294967295, shows 1]) rewound)
      (0 : UInt32).toNat).1 = .ok none ∧
    (vfsReaddirAt [shows 4294967295, shows 1] rewound (0 : UInt32).toNat).1 =
      .ok (some ⟨[97], .file, 0⟩) := by
  refine ⟨?_, rfl⟩
  have hv : List.Forall₂ Lists [shows 4294967295, shows 1]
      [replicate 4294967295 ⟨[97], .file, 0⟩, replicate 1 ⟨[97], .file, 0⟩] :=
    .cons (shows_lists (by decide)) (.cons (shows_lists (by decide)) .nil)
  generalize hls : [replicate 4294967295 _, replicate 1 _] = ls at hv
  have hlen : ls.flatten.length = 4294967296 := by
    rw [← hls]
    simp only [length_flatten, map_cons, map_nil, length_replicate]
    rfl
  have hend := readdirs_before hv rfl ls.flatten.length (Nat.le_of_eq (Nat.zero_add _))
    (rewound_before ls)
  rw [hlen] at hend
  generalize (replicate 4294967296 Call.readdir).foldl _ _ = c at hend ⊢
  have hentry : c.entry = 0 := hend.entry
  have hnext := (vfsReaddir_answers hv rfl hend).1
  rw [getElem?_eq_none (Nat.le_of_eq hlen)] at hnext
  have hzero : (0 : UInt32).toNat = 0 := rfl
  rw [hzero, vfsReaddirAt, if_neg (hentry ▸ Nat.not_lt_zero 0), Nat.zero_sub]
  exact hnext

end ManiOS.Vfs.Readdir
