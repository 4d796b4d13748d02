import ManiOS.Mm.Spaces
import Mathlib.Data.List.Nodup

/-!
# What the frames are for

The page tables hold together because every frame has one use.  `Role` names the
uses, and `Layout` says what follows for the entries: directories point at
themselves, at the kernel's directory and at tables, the tables of the user half
at pages, and no frame is used in two ways.  The kernel's half is the same in every
directory of the list.

A call changes the role of a frame or an entry of a table.  There is a lemma for
each way to do so, and from them one for each function of `paging.c`.
-/

namespace ManiOS.Mm

open Function (update update_self update_of_ne)
open List

/-- What a frame is for.  Tables and pages of the user half are named by the frame
of their directory and their place. -/
inductive Role where
  | dir
  | kernelTable (pdi : Nat)
  | userTable (dir pdi : Nat)
  | userPage (dir pdi pti : Nat)
  | held
deriving DecidableEq, Repr

/-- The frame holds a directory or a table. -/
def Role.IsTable : Role → Prop
  | .dir | .kernelTable _ | .userTable _ _ => True
  | .userPage _ _ _ | .held => False

/-- Who uses the frames: `none` for those that nothing is known of. -/
abbrev Roles := Nat → Option Role

variable {own : Roles} {a b : Role} {f g : Nat}

theorem role_ne (hf : own f = some a) (hg : own g = some b) (hab : a ≠ b) : f ≠ g := by
  rintro rfl
  exact hab (Option.some.inj (hf.symm.trans hg))

theorem role_ne_none (hf : own f = some a) (hg : own g = none) : f ≠ g := by
  rintro rfl
  cases hf.symm.trans hg

theorem role_update {t : Nat} (ht : own t = none)
    (hf : own f = some a) : update own t (some b) f = some a := by
  rw [update_of_ne (role_ne_none hf ht)]
  exact hf

theorem role_change {x : Option Role} (hf : own f = some a)
    (hg : own g = some b) (hab : a ≠ b) : update own g x f = some a := by
  rw [update_of_ne (role_ne hf hg hab)]
  exact hf

theorem entry_kept {r r' : Ram} {j : Nat} {x : Option Entry}
    (hram : ∀ g k, r'.entry g k = if g = f ∧ k = j then x else r.entry g k) (hf : own f = some a)
    (hg : own g = some b) (hab : b ≠ a) : r'.entry g = r.entry g :=
  funext fun k => (hram g k).trans (if_neg fun hc => role_ne hg hf hab hc.1)

namespace Pmm

/-- A frame that is there and is not free. -/
def Taken (m : Pmm) (f : Nat) : Prop := m.used f = true ∧ f ≠ 0 ∧ f < m.frameCount

variable {m m' : Pmm} {f t : Nat}

theorem Taken.mono (h : m.Taken f) (hcount : m'.frameCount = m.frameCount)
    (hused : m'.used = m.used ∨ m'.used = update m.used t true) : m'.Taken f := by
  refine ⟨?_, h.2.1, hcount ▸ h.2.2⟩
  rcases hused with hused | hused
  · rw [hused]
    exact h.1
  · rw [hused, Function.update_apply, h.1]
    exact ite_self true

end Pmm

namespace Paging

/-- A directory can be reached at its kernel address. -/
def Window (s : Paging) (p : Space) : Prop :=
  kernelPdFirst ≤ pdIndexOf p.pd ∧ pdIndexOf p.pd < ptAreaIndex ∧
    ∃ pde pte, s.ram.entry s.kernelSpace.frame (pdIndexOf p.pd) = some pde ∧
      s.ram.entry pde.frame (ptIndexOf p.pd) = some pte ∧ pte.frame = p.frame

/-- The directories: those of the list, and `pages`, which are not in it. -/
structure Dirs (own : Roles) (pages : List Space) (s : Paging) : Prop where
  kernel : s.kernelSpace ∈ s.spaces
  active : s.active ∈ s.spaces
  nodup : ((s.spaces ++ pages).map Space.frame).Nodup
  dir : ∀ p ∈ s.spaces ++ pages, own p.frame = some .dir
  small : ∀ p ∈ s.spaces ++ pages, p.frame < 1048576

/-- The kernel's half of the directories. -/
structure KernelHalf (own : Roles) (pages : List Space) (s : Paging) : Prop where
  self : ∀ p ∈ s.spaces, s.ram.entry p.frame recursivePdIndex = some ⟨p.frame, true, false, false⟩
  area : s.ram.entry s.kernelSpace.frame ptAreaIndex =
    some ⟨s.kernelSpace.frame, true, false, false⟩
  shared : ∀ p ∈ s.spaces, ∀ i, kernelPdFirst ≤ i → i < recursivePdIndex →
    s.ram.entry p.frame i = s.ram.entry s.kernelSpace.frame i
  kernelTable : ∀ i, kernelPdFirst ≤ i → i < ptAreaIndex → ∀ e,
    s.ram.entry s.kernelSpace.frame i = some e → own e.frame = some (.kernelTable i)
  window : ∀ p ∈ s.spaces ++ pages, s.Window p

/-- The user's half of the directories.  `pending` is a page of an address space that is
being cleared, whose frame is given back but whose entry is still there. -/
structure UserHalf (own : Roles) (pending : Nat → Option (Nat × Nat)) (s : Paging) : Prop where
  userTable : ∀ p ∈ s.spaces, ∀ i < kernelPdFirst, ∀ e, s.ram.entry p.frame i = some e →
    own e.frame = some (.userTable p.frame i) ∧ e.user = true ∧ e.writable = true
  userPage : ∀ p ∈ s.spaces, ∀ i < kernelPdFirst, ∀ e, s.ram.entry p.frame i = some e →
    ∀ j e', s.ram.entry e.frame j = some e' → pending p.frame ≠ some (i, j) →
      own e'.frame = some (.userPage p.frame i j)

/-- The roles of the frames fit the page tables, and frames with a role are taken. -/
structure Layout (own : Roles) (pages : List Space) (pending : Nat → Option (Nat × Nat))
    (s : Paging) : Prop extends Dirs own pages s, KernelHalf own pages s,
    UserHalf own pending s where
  ok : s.pmm.Ok
  used : ∀ f r, own f = some r → s.pmm.Taken f

namespace Layout

variable {own own' : Roles} {pages : List Space} {pending : Nat → Option (Nat × Nat)}
  {s : Paging} {p : Space} {f t i j : Nat} {r : Ram} {m : Pmm} {x : Option Entry} {e : Entry}

theorem perm_erase {spaces : List Space} (hp : p ∈ pages) :
    (spaces ++ pages).Perm (p :: (spaces ++ pages.erase p)) :=
  ((perm_cons_erase hp).append_left spaces).trans perm_middle

/-! ## The fixed addresses -/

variable (h : Layout own pages pending s)
include h

theorem active_dir : own s.active.frame = some .dir :=
  h.dir _ (mem_append_left _ h.active)

theorem kernel_dir : own s.kernelSpace.frame = some .dir :=
  h.dir _ (mem_append_left _ h.kernel)

theorem space_dir (hp : p ∈ s.spaces) : own p.frame = some .dir := h.dir p (mem_append_left _ hp)

theorem listed_dir (hf : f ∈ s.spaces.map Space.frame) : own f = some .dir := by
  obtain ⟨q, hq, rfl⟩ := mem_map.mp hf
  exact h.space_dir hq

theorem active_area :
    s.ram.entry s.active.frame ptAreaIndex = some ⟨s.kernelSpace.frame, true, false, false⟩ :=
  (h.shared _ h.active _ (by decide) (by decide)).trans h.area

theorem shared_active (hlo : kernelPdFirst ≤ i) (hhi : i < ptAreaIndex) :
    s.ram.entry s.active.frame i = s.ram.entry s.kernelSpace.frame i :=
  h.shared _ h.active i hlo (Nat.lt_trans hhi (by decide))

theorem recursive : s.Recursive := ⟨_, h.self _ h.active, rfl⟩

theorem page_pd : s.page recursivePdAddr = some s.active.frame := h.recursive.page_pd

theorem page_pageTable (hi : i < 1024) :
    s.page (pageTable i) = (s.ram.entry s.active.frame i).map Entry.frame :=
  h.recursive.page_pageTable hi

/-! ## Changes -/

/-- The kernel's half depends on the kernel's entries of the directories and on its
tables only. -/
theorem kernelHalf_congr
    (hdir : ∀ p ∈ s.spaces, ∀ k, kernelPdFirst ≤ k → r.entry p.frame k = s.ram.entry p.frame k)
    (htable : ∀ p ∈ s.spaces ++ pages, ∀ f, own f = some (.kernelTable (pdIndexOf p.pd)) →
      r.entry f (ptIndexOf p.pd) = s.ram.entry f (ptIndexOf p.pd))
    (hown : ∀ f i, own f = some (.kernelTable i) → own' f = some (.kernelTable i)) :
    KernelHalf own' pages { s with pmm := m, ram := r } where
  self p hp := (hdir p hp _ (by decide)).trans (h.self p hp)
  area := (hdir _ h.kernel _ (by decide)).trans h.area
  shared p hp i hlo hhi :=
    (hdir p hp i hlo).trans ((h.shared p hp i hlo hhi).trans (hdir _ h.kernel i hlo).symm)
  kernelTable i hlo hhi e he :=
    hown _ _ (h.kernelTable i hlo hhi e ((hdir _ h.kernel i hlo).symm.trans he))
  window p hp := by
    obtain ⟨hlo, hhi, pde, pte, hpde, hpte, hframe⟩ := h.window p hp
    have hrole := h.kernelTable _ hlo hhi pde hpde
    exact ⟨hlo, hhi, pde, pte, (hdir _ h.kernel _ hlo).trans hpde,
      (htable p hp _ hrole).trans hpte, hframe⟩

theorem userHalf_congr
    (hdir : ∀ p ∈ s.spaces, ∀ k < kernelPdFirst, r.entry p.frame k = s.ram.entry p.frame k)
    (htable : ∀ f p i, own f = some (.userTable p i) → r.entry f = s.ram.entry f)
    (hown : ∀ f p i, own f = some (.userTable p i) → own' f = some (.userTable p i))
    (hown' : ∀ f p i j, own f = some (.userPage p i j) → own' f = some (.userPage p i j)) :
    UserHalf own' pending { s with pmm := m, ram := r } where
  userTable p hp i hi e he := by
    obtain ⟨hrole, hflags⟩ := h.userTable p hp i hi e ((hdir p hp i hi).symm.trans he)
    exact ⟨hown _ _ _ hrole, hflags⟩
  userPage p hp i hi e he j e' he' hpend := by
    have he := (hdir p hp i hi).symm.trans he
    have htable := htable _ _ _ (h.userTable p hp i hi e he).1
    exact hown' _ _ _ _
      (h.userPage p hp i hi e he j e' ((congrFun htable j).symm.trans he') hpend)

theorem dirs_congr (hown : ∀ f, own f = some .dir → own' f = some .dir) :
    Dirs own' pages { s with pmm := m, ram := r } :=
  { h.toDirs with dir p hp := hown _ (h.dir p hp) }

theorem used_enter {b : Option Role} (hused : ∀ f, s.pmm.Taken f → m.Taken f) (ht : m.Taken t) :
    ∀ f a, update own t b f = some a → m.Taken f := by
  intro f a hf
  rcases eq_or_ne f t with rfl | hne
  · exact ht
  · rw [update_of_ne hne] at hf
    exact hused f (h.used f a hf)

theorem used_update {b : Option Role} (hf : own f = some a) :
    ∀ g c, update own f b g = some c → s.pmm.Taken g :=
  h.used_enter (fun _ ht => ht) (h.used _ _ hf)

/-- Frames that hold neither tables nor pages change hands, and what is in frames that
are no tables changes. -/
theorem of_data (hok : m.Ok) (hused : ∀ f a, own' f = some a → m.Taken f)
    (hown : ∀ f a, own f = some a → a ≠ .held → own' f = some a)
    (hram : ∀ f a, own f = some a → a.IsTable → r.entry f = s.ram.entry f) :
    Layout own' pages pending { s with pmm := m, ram := r } where
  toDirs := h.dirs_congr fun f hf => hown f _ hf nofun
  toKernelHalf := h.kernelHalf_congr
    (fun _ hp k _ => congrFun (hram _ _ (h.space_dir hp) trivial) k)
    (fun _ _ f hf => congrFun (hram f _ hf trivial) _) fun f _ hf => hown f _ hf nofun
  toUserHalf := h.userHalf_congr
    (fun _ hp k _ => congrFun (hram _ _ (h.space_dir hp) trivial) k)
    (fun f _ _ hf => hram f _ hf trivial) (fun f _ _ hf => hown f _ hf nofun)
    fun f _ _ _ hf => hown f _ hf nofun
  ok := hok
  used := hused

/-- An entry of a table of the kernel changes that no directory is reached by. -/
theorem setKernelEntry (hlo : kernelPdFirst ≤ i)
    (hhi : i < ptAreaIndex) (he : s.ram.entry s.kernelSpace.frame i = some e)
    (hwindow : ∀ p ∈ s.spaces ++ pages, pdIndexOf p.pd = i → ptIndexOf p.pd ≠ j)
    (hram : ∀ g k, r.entry g k = if g = e.frame ∧ k = j then x else s.ram.entry g k) :
    Layout own pages pending { s with ram := r } := by
  have hrole := h.kernelTable i hlo hhi e he
  have hdir : ∀ p ∈ s.spaces, ∀ k, r.entry p.frame k = s.ram.entry p.frame k := fun p hp =>
    congrFun (entry_kept hram hrole (h.space_dir hp) nofun)
  refine ⟨h.dirs_congr fun _ hf => hf, h.kernelHalf_congr
      (fun p hp k _ => hdir p hp k) (fun p hp f hf => (hram _ _).trans (if_neg fun hc => ?_))
      fun _ _ hf => hf,
    h.userHalf_congr (fun p hp k _ => hdir p hp k)
      (fun f p k hf => entry_kept hram hrole hf nofun) (fun _ _ _ hf => hf) fun _ _ _ _ hf => hf,
    h.ok, h.used⟩
  -- the same table has the same place in the directory
  rw [hc.1, hrole] at hf
  cases hf
  exact hwindow p hp rfl hc.2

/-- An entry of a table of the user's half changes.  Only the role of its page does. -/
theorem setUserEntry {pending' : Nat → Option (Nat × Nat)}
    (hp : p ∈ s.spaces) (hi : i < kernelPdFirst) (he : s.ram.entry p.frame i = some e)
    (hram : ∀ g k, r.entry g k = if g = e.frame ∧ k = j then x else s.ram.entry g k)
    (hpend : pending p.frame = none ∨ pending p.frame = some (i, j))
    (hpend' : ∀ q ≠ p.frame, pending' q = pending q)
    (hown : ∀ f a, own f = some a → a ≠ .held → a ≠ .userPage p.frame i j → own' f = some a)
    (hnew : ∀ e' ∈ x, pending' p.frame ≠ some (i, j) → own' e'.frame = some (.userPage p.frame i j))
    (hok : m.Ok) (hused : ∀ f a, own' f = some a → m.Taken f) :
    Layout own' pages pending' { s with pmm := m, ram := r } where
  toDirs := h.dirs_congr fun f hf => hown f _ hf nofun nofun
  toKernelHalf := by
    have hrole := (h.userTable p hp i hi e he).1
    exact h.kernelHalf_congr
      (fun q hq k _ => congrFun (entry_kept hram hrole (h.space_dir hq) nofun) k)
      (fun q _ f hf => congrFun (entry_kept hram hrole hf nofun) _)
      fun f k hf => hown f _ hf nofun nofun
  toUserHalf := by
    have hrole := (h.userTable p hp i hi e he).1
    have hdir : ∀ q ∈ s.spaces, ∀ k, r.entry q.frame k = s.ram.entry q.frame k := fun q hq =>
      congrFun (entry_kept hram hrole (h.space_dir hq) nofun)
    refine ⟨fun q hq k hk d hd => ?_, fun q hq k hk d hd j' e' he' hne => ?_⟩
    · obtain ⟨hrole', hflags⟩ := h.userTable q hq k hk d ((hdir q hq k).symm.trans hd)
      exact ⟨hown _ _ hrole' nofun nofun, hflags⟩
    · have hd' := (hdir q hq k).symm.trans hd
      have hrole' := (h.userTable q hq k hk d hd').1
      rw [hram] at he'
      split at he'
      next hc =>
        -- the entry that changed
        rw [hc.1, hrole] at hrole'
        injection hrole' with hrole'
        injection hrole' with hq hk
        rw [← hq, ← hk, hc.2] at hne ⊢
        exact hnew e' he' hne
      next hc =>
        have hplace : ¬ (q.frame = p.frame ∧ k = i ∧ j' = j) := by
          rintro ⟨hq', hk', hj'⟩
          rw [hq', hk', he] at hd'
          cases hd'
          exact hc ⟨rfl, hj'⟩
        refine hown _ _ (h.userPage q hq k hk d hd' j' e' he' fun hp' => ?_) nofun fun heq => ?_
        · by_cases hq' : q.frame = p.frame
          · rw [hq'] at hp'
            rcases hpend with hpend | hpend
            · cases hpend.symm.trans hp'
            · cases hpend.symm.trans hp'
              exact hplace ⟨hq', rfl, rfl⟩
          · exact hne ((hpend' _ hq').trans hp')
        · injection heq with hq' hk' hj'
          exact hplace ⟨hq', hk', hj'⟩
  ok := hok
  used := hused

theorem frame_inj {q : Space} (hp : p ∈ s.spaces ++ pages)
    (hq : q ∈ s.spaces ++ pages) (heq : p.frame = q.frame) : p = q :=
  inj_on_of_nodup_map h.nodup hp hq heq

theorem enterUserTable (hp : p ∈ s.spaces)
    (hi : i < kernelPdFirst) (ht : own t = none)
    (hram : ∀ g k, r.entry g k = if g = t then none else
      if g = p.frame ∧ k = i then some ⟨t, true, true, false⟩ else s.ram.entry g k)
    (hok : m.Ok) (hused : ∀ f, s.pmm.Taken f → m.Taken f) (htaken : m.Taken t) :
    Layout (update own t (some (.userTable p.frame i))) pages pending
      { s with pmm := m, ram := r } where
  toDirs := h.dirs_congr fun f hf => role_update ht hf
  toKernelHalf := by
    refine h.kernelHalf_congr (fun q hq k hk => ?_) (fun q hq f hf => ?_)
      fun f k hf => role_update ht hf
    · refine (hram _ _).trans ?_
      rw [if_neg (role_ne_none (h.space_dir hq) ht), if_neg fun hc => by omega]
    · refine (hram _ _).trans ?_
      rw [if_neg (role_ne_none hf ht), if_neg fun hc => role_ne hf (h.space_dir hp) nofun hc.1]
  toUserHalf := by
    have hold : ∀ q ∈ s.spaces, ∀ k < kernelPdFirst, ∀ d, r.entry q.frame k = some d →
        q.frame = p.frame ∧ k = i ∧ d = ⟨t, true, true, false⟩ ∨
          s.ram.entry q.frame k = some d := by
      intro q hq k hk d hd
      rw [hram, if_neg (role_ne_none (h.space_dir hq) ht)] at hd
      split at hd
      next hc =>
        cases hd
        exact .inl ⟨hc.1, hc.2, rfl⟩
      next => exact .inr hd
    refine ⟨fun q hq k hk d hd => ?_, fun q hq k hk d hd j' e' he' hne => ?_⟩
    · rcases hold q hq k hk d hd with ⟨hq', rfl, rfl⟩ | hd
      · rw [hq']
        exact ⟨update_self .., rfl, rfl⟩
      · obtain ⟨hrole, hflags⟩ := h.userTable q hq k hk d hd
        exact ⟨role_update ht hrole, hflags⟩
    · rcases hold q hq k hk d hd with ⟨hq', rfl, rfl⟩ | hd
      · cases (hram _ _).symm.trans he' |>.symm.trans (if_pos rfl)
      · have hrole := (h.userTable q hq k hk d hd).1
        rw [hram, if_neg (role_ne_none hrole ht),
          if_neg fun hc => role_ne hrole (h.space_dir hp) nofun hc.1] at he'
        exact role_update ht (h.userPage q hq k hk d hd j' e' he' hne)
  ok := hok
  used := h.used_enter hused htaken

theorem enterKernelTable (hlo : kernelPdFirst ≤ i)
    (hhi : i < ptAreaIndex) (hnone : s.ram.entry s.kernelSpace.frame i = none) (ht : own t = none)
    (hram : ∀ g k, r.entry g k = if g = t then none else
      if k = i ∧ g ∈ s.spaces.map Space.frame then some ⟨t, true, false, false⟩
      else s.ram.entry g k)
    (hok : m.Ok) (hused : ∀ f, s.pmm.Taken f → m.Taken f) (htaken : m.Taken t) :
    Layout (update own t (some (.kernelTable i))) pages pending
      { s with pmm := m, ram := r } where
  toDirs := h.dirs_congr fun f hf => role_update ht hf
  toKernelHalf := by
    have hdir : ∀ q ∈ s.spaces, ∀ k, r.entry q.frame k =
        if k = i then some ⟨t, true, false, false⟩ else s.ram.entry q.frame k := by
      intro q hq k
      rw [hram, if_neg (role_ne_none (h.space_dir hq) ht)]
      exact if_congr (and_iff_left (mem_map_of_mem hq)) rfl rfl
    have harea : ptAreaIndex ≠ i := by omega
    have hself : recursivePdIndex ≠ i := by
      simp only [recursivePdIndex, ptAreaIndex] at *
      omega
    refine ⟨fun q hq => ?_, ?_, fun q hq k hk hk' => ?_, fun k hk hk' d hd => ?_, fun q hq => ?_⟩
    · refine (hdir q hq _).trans ?_
      rw [if_neg hself]
      exact h.self q hq
    · refine (hdir _ h.kernel _).trans ?_
      rw [if_neg harea]
      exact h.area
    · refine (hdir q hq k).trans ?_
      rw [h.shared q hq k hk hk']
      exact (hdir _ h.kernel k).symm
    · have hd := (hdir _ h.kernel k).symm.trans hd
      split at hd
      next hk =>
        cases hd
        rw [hk]
        exact update_self ..
      next => exact role_update ht (h.kernelTable k hk hk' d hd)
    · obtain ⟨hlo', hhi', pde, pte, hpde, hpte, hframe⟩ := h.window q hq
      have hne : pdIndexOf q.pd ≠ i := by
        rintro heq
        rw [heq, hnone] at hpde
        cases hpde
      have hrole := h.kernelTable _ hlo' hhi' pde hpde
      refine ⟨hlo', hhi', pde, pte, ?_, ?_, hframe⟩
      · refine (hdir _ h.kernel _).trans ?_
        rw [if_neg hne]
        exact hpde
      · refine (hram _ _).trans ?_
        rw [if_neg (role_ne_none hrole ht),
          if_neg fun hc => role_ne hrole (h.listed_dir hc.2) (by simp) rfl]
        exact hpte
  toUserHalf := by
    refine h.userHalf_congr (fun q hq k hk => ?_)
      (fun f q k hf => funext fun k' => ?_) (fun f q k hf => role_update ht hf)
      fun f q k k' hf => role_update ht hf
    · refine (hram _ _).trans ?_
      rw [if_neg (role_ne_none (h.space_dir hq) ht), if_neg fun hc => by omega]
    · refine (hram _ _).trans ?_
      rw [if_neg (role_ne_none hf ht),
        if_neg fun hc => role_ne hf (h.listed_dir hc.2) (by simp) rfl]
  ok := hok
  used := h.used_enter hused htaken

theorem leaveUserTable (hp : p ∈ s.spaces)
    (hi : i < kernelPdFirst) (he : s.ram.entry p.frame i = some e)
    (hram : ∀ g k, r.entry g k = if g = p.frame ∧ k = i then none else s.ram.entry g k) :
    Layout (update own e.frame (some .held)) pages pending { s with ram := r } := by
  have hrole := (h.userTable p hp i hi e he).1
  have hkeep : ∀ f a, own f = some a → a ≠ .userTable p.frame i →
      update own e.frame (some .held) f = some a := fun f a hf => role_change hf hrole
  have htable : ∀ f a, own f = some a → a ≠ .dir → r.entry f = s.ram.entry f := fun f a =>
    entry_kept hram (h.space_dir hp)
  have hold : ∀ q ∈ s.spaces, ∀ k, ∀ d, r.entry q.frame k = some d →
      ¬ (q.frame = p.frame ∧ k = i) ∧ s.ram.entry q.frame k = some d := by
    intro q hq k d hd
    rw [hram] at hd
    split at hd
    next => cases hd
    next hc => exact ⟨hc, hd⟩
  refine ⟨h.dirs_congr fun f hf => hkeep f _ hf nofun,
    h.kernelHalf_congr (fun q hq k hk => (hram _ _).trans (if_neg fun hc => by omega))
      (fun q _ f hf => congrFun (htable f _ hf nofun) _) fun f k hf => hkeep f _ hf nofun,
    ⟨fun q hq k hk d hd => ?_, fun q hq k hk d hd j' e' he' hne => ?_⟩, h.ok, h.used_update hrole⟩
  · obtain ⟨hc, hd⟩ := hold q hq k d hd
    obtain ⟨hrole', hflags⟩ := h.userTable q hq k hk d hd
    refine ⟨hkeep _ _ hrole' fun heq => ?_, hflags⟩
    injection heq with hq' hk'
    exact hc ⟨hq', hk'⟩
  · obtain ⟨-, hd⟩ := hold q hq k d hd
    have hrole' := (h.userTable q hq k hk d hd).1
    rw [htable _ _ hrole' nofun] at he'
    exact hkeep _ _ (h.userPage q hq k hk d hd j' e' he' hne) nofun

/-! ## Directories come and go -/

/-- A page that is held becomes a directory that is not in the list. -/
theorem addPage (hheld : own p.frame = some .held)
    (hsmall : p.frame < 1048576) (hwindow : s.Window p) :
    Layout (update own p.frame (some .dir)) (p :: pages) pending s := by
  have hkeep : ∀ f a, own f = some a → a ≠ .held → update own p.frame (some .dir) f = some a :=
    fun f a hf => role_change hf hheld
  have hperm : (s.spaces ++ p :: pages).Perm (p :: (s.spaces ++ pages)) := perm_middle
  have hall {P : Space → Prop} (hp : P p) (hold : ∀ q ∈ s.spaces ++ pages, P q) :
      ∀ q ∈ s.spaces ++ p :: pages, P q := fun q hq =>
    forall_mem_cons.mpr ⟨hp, hold⟩ q (hperm.mem_iff.mp hq)
  refine ⟨⟨h.kernel, h.active, ?_,
      hall (update_self ..) fun q hq => hkeep _ _ (h.dir q hq) nofun, hall hsmall h.small⟩,
    ⟨h.self, h.area, h.shared, fun k hk hk' d hd => hkeep _ _ (h.kernelTable k hk hk' d hd) nofun,
      hall hwindow h.window⟩,
    h.userHalf_congr (fun _ _ _ _ => rfl) (fun _ _ _ _ => rfl)
      (fun _ _ _ hf => hkeep _ _ hf nofun) fun _ _ _ _ hf => hkeep _ _ hf nofun,
    h.ok, h.used_update hheld⟩
  rw [(hperm.map Space.frame).nodup_iff, map_cons, nodup_cons]
  refine ⟨fun hin => ?_, h.nodup⟩
  obtain ⟨q, hq, heq⟩ := mem_map.mp hin
  exact role_ne (h.dir q hq) hheld nofun heq

/-- A directory that is not in the list is given up: its page is held again. -/
theorem dropPage (hp : p ∈ pages) :
    Layout (update own p.frame (some .held)) (pages.erase p) pending s := by
  have hdir := h.dir p (mem_append_right _ hp)
  have hkeep : ∀ f a, own f = some a → a ≠ .dir → update own p.frame (some .held) f = some a :=
    fun f a hf => role_change hf hdir
  have hperm : (s.spaces ++ pages).Perm (p :: (s.spaces ++ pages.erase p)) := perm_erase hp
  have hnodup := (hperm.map Space.frame).nodup_iff.mp h.nodup
  rw [map_cons, nodup_cons] at hnodup
  have hmem : ∀ q ∈ s.spaces ++ pages.erase p, q ∈ s.spaces ++ pages := fun q hq =>
    hperm.mem_iff.mpr (mem_cons_of_mem _ hq)
  refine ⟨⟨h.kernel, h.active, hnodup.2, fun q hq => ?_, fun q hq => h.small q (hmem q hq)⟩,
    ⟨h.self, h.area, h.shared, fun k hk hk' d hd => hkeep _ _ (h.kernelTable k hk hk' d hd) nofun,
      fun q hq => h.window q (hmem q hq)⟩,
    h.userHalf_congr (fun _ _ _ _ => rfl) (fun _ _ _ _ => rfl)
      (fun _ _ _ hf => hkeep _ _ hf nofun) fun _ _ _ _ hf => hkeep _ _ hf nofun,
    h.ok, h.used_update hdir⟩
  have hne : q.frame ≠ p.frame := fun heq => hnodup.1 (heq ▸ mem_map_of_mem hq)
  rw [update_of_ne hne]
  exact h.dir q (hmem q hq)

theorem join (hp : p ∈ pages) (hram : ∀ g, g ≠ p.frame → r.entry g = s.ram.entry g)
    (hkernel : ∀ k, kernelPdFirst ≤ k → k < recursivePdIndex →
      r.entry p.frame k = s.ram.entry s.kernelSpace.frame k)
    (hself : r.entry p.frame recursivePdIndex = some ⟨p.frame, true, false, false⟩)
    (huser : ∀ k < kernelPdFirst, r.entry p.frame k = none) :
    Layout own (pages.erase p) pending { s with ram := r, spaces := p :: s.spaces } := by
  have hdir := h.dir p (mem_append_right _ hp)
  have hperm : (s.spaces ++ pages).Perm (p :: (s.spaces ++ pages.erase p)) := perm_erase hp
  have hnodup := (hperm.map Space.frame).nodup_iff.mp h.nodup
  have hold : ∀ q ∈ s.spaces, r.entry q.frame = s.ram.entry q.frame := fun q hq =>
    hram _ fun heq => (nodup_cons.mp hnodup).1 (heq ▸ mem_map_of_mem (mem_append_left _ hq))
  have htable : ∀ f a, own f = some a → a ≠ .dir → r.entry f = s.ram.entry f := fun f a hf hne =>
    hram _ (role_ne hf hdir hne)
  refine ⟨⟨mem_cons_of_mem _ h.kernel, mem_cons_of_mem _ h.active, hnodup,
      fun q hq => h.dir q (hperm.mem_iff.mpr hq), fun q hq => h.small q (hperm.mem_iff.mpr hq)⟩,
    ⟨fun q hq => ?_, ?_, fun q hq k hk hk' => ?_, fun k hk hk' d hd => ?_, fun q hq => ?_⟩,
    ⟨fun q hq k hk d hd => ?_, fun q hq k hk d hd j' e' he' hne => ?_⟩, h.ok, h.used⟩
  · rcases mem_cons.mp hq with rfl | hq
    · exact hself
    · exact (congrFun (hold q hq) _).trans (h.self q hq)
  · exact (congrFun (hold _ h.kernel) _).trans h.area
  · refine .trans ?_ (congrFun (hold _ h.kernel) k).symm
    rcases mem_cons.mp hq with rfl | hq
    · exact hkernel k hk hk'
    · exact (congrFun (hold q hq) k).trans (h.shared q hq k hk hk')
  · exact h.kernelTable k hk hk' d ((congrFun (hold _ h.kernel) k).symm.trans hd)
  · obtain ⟨hlo, hhi, pde, pte, hpde, hpte, hframe⟩ := h.window q (hperm.mem_iff.mpr hq)
    have hrole := h.kernelTable _ hlo hhi pde hpde
    exact ⟨hlo, hhi, pde, pte, (congrFun (hold _ h.kernel) _).trans hpde,
      (congrFun (htable _ _ hrole nofun) _).trans hpte, hframe⟩
  · rcases mem_cons.mp hq with rfl | hq
    · cases (huser k hk).symm.trans hd
    · exact h.userTable q hq k hk d ((congrFun (hold q hq) k).symm.trans hd)
  · rcases mem_cons.mp hq with rfl | hq
    · cases (huser k hk).symm.trans hd
    · have hd := (congrFun (hold q hq) k).symm.trans hd
      have hrole := (h.userTable q hq k hk d hd).1
      exact h.userPage q hq k hk d hd j' e' ((congrFun (htable _ _ hrole nofun) _).symm.trans he')
        hne

theorem unlink (hp : p ∈ s.spaces) (hactive : p ≠ s.active) (hkernel : p ≠ s.kernelSpace) :
    Layout own (p :: pages) pending { s with spaces := s.spaces.erase p } := by
  have hperm : (s.spaces ++ pages).Perm (s.spaces.erase p ++ p :: pages) :=
    ((perm_cons_erase hp).append_right pages).trans perm_middle.symm
  have hmem : ∀ q ∈ s.spaces.erase p ++ p :: pages, q ∈ s.spaces ++ pages := fun q hq =>
    hperm.mem_iff.mpr hq
  have hsub : ∀ q ∈ s.spaces.erase p, q ∈ s.spaces := fun q hq => mem_of_mem_erase hq
  exact { h with
    kernel := (mem_erase_of_ne hkernel.symm).mpr h.kernel
    active := (mem_erase_of_ne hactive.symm).mpr h.active
    nodup := (hperm.map Space.frame).nodup_iff.mp h.nodup
    dir := fun q hq => h.dir q (hmem q hq)
    small := fun q hq => h.small q (hmem q hq)
    self := fun q hq => h.self q (hsub q hq)
    shared := fun q hq => h.shared q (hsub q hq)
    window := fun q hq => h.window q (hmem q hq)
    userTable := fun q hq => h.userTable q (hsub q hq)
    userPage := fun q hq => h.userPage q (hsub q hq) }

theorem activate (hp : p ∈ s.spaces) : Layout own pages pending { s with active := p } :=
  { h with active := hp }

theorem perm {pages' : List Space} (hp : pages.Perm pages') : Layout own pages' pending s := by
  have hperm : (s.spaces ++ pages).Perm (s.spaces ++ pages') := hp.append_left _
  exact { h with
    nodup := (hperm.map Space.frame).nodup_iff.mp h.nodup
    dir := fun q hq => h.dir q (hperm.mem_iff.mpr hq)
    small := fun q hq => h.small q (hperm.mem_iff.mpr hq)
    window := fun q hq => h.window q (hperm.mem_iff.mpr hq) }

theorem setSlots (slots : Nat → Bool) : Layout own pages pending { s with slots } := { h with }

end Layout

end Paging

end ManiOS.Mm
