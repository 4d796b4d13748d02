import ManiOS.Lib.Linked
import ManiOS.Vfs.Account

/-!
# Mount tables and resolution

The mounts of a namespace are a linked list.  `Rep s tbl` says which list each
namespace has (`tbl`), that every mount is in exactly one of them, and that every
location that is kept has between one and eight members.

`lookPath` is what `ns_resolve` does, in terms of files and names: no vnodes, no
references and no strings.  `goes_nsResolve` says that the code does that, and
that it takes exactly the references of its result.
-/

namespace ManiOS.Vfs

open ManiOS.Lib

variable {O : Type}

/-- A location that is kept: some members, and not too many. -/
def Sized (loc : Location) : Prop := loc ≠ [] ∧ loc.length ≤ unionMax

theorem sized_single (v : Nat) : Sized [v] := ⟨List.cons_ne_nil v [], by simp [unionMax]⟩

def State.nextOf (s : State O) (p : Nat) : Option Nat := (s.mount p).bind Mount.next

/-- Every namespace has its own list of mounts, and every mount is in one. -/
structure Rep (s : State O) (tbl : Nat → List Nat) : Prop where
  linked : ∀ i n, s.space i = some n → Linked s.nextOf n.mounts (tbl i)
  unused : ∀ i, s.space i = none → tbl i = []
  there : ∀ i p, p ∈ tbl i → ∃ m, s.mount p = some m
  apart : ∀ i j p, p ∈ tbl i → p ∈ tbl j → i = j
  listed : ∀ p m, s.mount p = some m → ∃ i, p ∈ tbl i
  mountLoc : ∀ p m, s.mount p = some m → Sized m.loc
  fileLoc : ∀ f x, s.file f = some x → Sized x.loc

/-- What a mount says: its path, and the location there. -/
def State.entry (s : State O) (p : Nat) : CStr × Location :=
  (s.mount p).elim ([], []) fun m => (m.path, m.loc)

/-- What is mounted at a path, in the table with the mounts of `l`. -/
def State.mounted (s : State O) (l : List Nat) (canon : CStr) : Option Location :=
  (l.find? fun p => (s.entry p).1 = canon).map fun p => (s.entry p).2

section Tables

variable {K : Kinds O} {s s' : State O} {tbl : Nat → List Nat} {x : List Nat} {i : Nat}
  {n : Namespace}

theorem Rep.quiet (h : Rep s tbl) (hq : Quiet x s s') : Rep s' tbl := by
  have hnext : s'.nextOf = s.nextOf := by
    unfold State.nextOf
    rw [hq.mount]
  exact { h with
    linked := fun i n hn => hnext ▸ h.linked i n (hq.space ▸ hn)
    unused := fun i hi => h.unused i (hq.space ▸ hi)
    there := fun i p hp => hq.mount ▸ h.there i p hp
    listed := fun p m hm => h.listed p m (hq.mount ▸ hm)
    mountLoc := fun p m hm => h.mountLoc p m (hq.mount ▸ hm)
    fileLoc := fun f x hf => h.fileLoc f x (hq.file ▸ hf) }

theorem State.entry_of {p : Nat} {m : Mount} (h : s.mount p = some m) :
    s.entry p = (m.path, m.loc) := by
  unfold State.entry
  rw [h]
  rfl

theorem Rep.length_le (h : Rep s tbl) (hf : s.Fresh) (hn : s.space i = some n) :
    (tbl i).length ≤ s.brk := by
  have hnd := (h.linked i n hn).nodup
  have hsub : tbl i ⊆ .range s.brk := by
    intro p hp
    obtain ⟨m, hm⟩ := h.there i p hp
    rw [List.mem_range]
    by_contra hlt
    rw [(hf p (not_lt.mp hlt)).2.1] at hm
    cases hm
  have := (List.subperm_of_subset hnd hsub).length_le
  rwa [List.length_range] at this

theorem goes_seekMount (h : Rep s tbl) (stop : Mount → Bool) (rest : List Nat) :
    ∀ (left : Nat) (pre : List Nat) (cur : Option Nat), tbl i = pre ++ rest →
      Linked s.nextOf cur rest → rest.length ≤ left →
      Goes (seekMount stop left pre.getLast? cur) s fun r s' => s' = s ∧
        ∃ a b, rest = a ++ b ∧ r = ((pre ++ a).getLast?, b.head?) ∧
          (∀ p ∈ a, ∀ m, s.mount p = some m → stop m = false) ∧
          ∀ p m, b.head? = some p → s.mount p = some m → stop m = true := by
  induction rest with
  | nil =>
    intro left pre cur _ hcur _
    cases hcur
    cases left with
    | zero | succ => exact .pure ⟨rfl, [], [], rfl, by simp, by simp, by simp⟩
  | cons p rest ih =>
    intro left pre cur htbl hcur hlen
    obtain ⟨rfl, hnext⟩ := hcur
    cases left with
    | zero => exact absurd hlen (by simp)
    | succ left =>
      obtain ⟨m, hm⟩ := h.there i p (by rw [htbl]; simp)
      refine .gets_bind hm ?_
      cases hstop : stop m with
      | true =>
        refine .pure ⟨rfl, [], p :: rest, rfl, by simp, by simp, fun q m' hq hm' => ?_⟩
        cases hq
        rw [hm] at hm'
        cases hm'
        exact hstop
      | false =>
        have hlink : Linked s.nextOf m.next rest := by
          have : s.nextOf p = m.next := by
            unfold State.nextOf
            rw [hm]
            rfl
          exact this ▸ hnext
        have hgo := ih left (pre ++ [p]) m.next (by rw [htbl]; simp) hlink
          (Nat.le_of_succ_le_succ hlen)
        rw [List.getLast?_concat] at hgo
        refine hgo.mono ?_
        rintro r s' ⟨rfl, a, b, rfl, hr, ha, hb⟩
        refine ⟨rfl, p :: a, b, rfl, by rw [hr]; simp, fun q hq m' hm' => ?_, hb⟩
        rcases List.mem_cons.mp hq with rfl | hq
        · rw [hm] at hm'
          cases hm'
          exact hstop
        · exact ha q hq m' hm'

theorem goes_findMount (h : Rep s tbl) (hf : s.Fresh) (hn : s.space i = some n) (canon : CStr) :
    Goes (findMount n canon) s fun r s' =>
      s' = s ∧ r = (tbl i).find? fun p => (s.entry p).1 = canon := by
  refine .gets_bind rfl (.bind ((goes_seekMount h _ (tbl i) s.brk [] n.mounts rfl
    (h.linked i n hn) (h.length_le hf hn)).mono ?_))
  rintro r s1 ⟨rfl, a, b, hab, rfl, ha, hb⟩
  refine .pure ⟨rfl, ?_⟩
  have hskip : a.find? (fun p => (s1.entry p).1 = canon) = none := by
    rw [List.find?_eq_none]
    intro p hp
    obtain ⟨m, hm⟩ := h.there i p (by rw [hab]; exact List.mem_append_left b hp)
    rw [State.entry_of hm]
    simpa using ha p hp m hm
  rw [hab, List.find?_append, hskip]
  cases b with
  | nil => rfl
  | cons p b =>
    obtain ⟨m, hm⟩ := h.there i p (by rw [hab]; simp)
    have hstop := hb p m rfl hm
    rw [List.find?_cons_of_pos (by rw [State.entry_of hm]; exact hstop)]
    rfl

end Tables

/-! ## What objects hold -/

section Holders

variable {K : Kinds O} {s s' : State O} {x : List Nat} {v p : Nat}

theorem State.InUse.of_heldAt (hf : s.Fresh) (h : 0 < s.heldAt p v) : s.InUse x v := by
  have := heldAt_le hf (p := p) (v := v)
  unfold State.InUse
  omega

theorem inUse_root (hf : s.Fresh) {n : Namespace} (hn : s.space p = some n) : s.InUse x n.root := by
  refine .of_heldAt hf (p := p) ?_
  simp only [State.heldAt, hn, Option.elim_some, if_true]
  omega

theorem inUse_mount (hf : s.Fresh) {m : Mount} (hm : s.mount p = some m) (hv : v ∈ m.loc) :
    s.InUse x v := by
  have := List.count_pos_iff.mpr hv
  refine .of_heldAt hf (p := p) ?_
  simp only [State.heldAt, hm, Option.elim_some]
  omega

def State.filesOf (s : State O) (loc : Location) : List O := loc.filterMap s.fileOf

theorem files_filesOf (h : Acct K s x) {loc : Location} (hl : ∀ v ∈ loc, s.InUse x v) :
    s.Files loc (s.filesOf loc) := by
  induction loc with
  | nil => exact .nil
  | cons v loc ih =>
    obtain ⟨n, hn, -⟩ := h.node (hl v List.mem_cons_self)
    have hfile : s.fileOf v = some n.file := by
      unfold State.fileOf
      rw [hn]
      rfl
    unfold State.filesOf
    rw [List.filterMap_cons_some hfile]
    exact .cons hfile (ih (List.forall_mem_cons.mp hl).2)

theorem filesOf_quiet (hq : Quiet x s s') {loc : Location} (hl : ∀ v ∈ loc, s.InUse x v) :
    s'.filesOf loc = s.filesOf loc :=
  List.filterMap_congr fun v hv => hq.kept v (hl v hv)

end Holders

/-! ## Resolution in terms of files -/

/-- What is mounted where in a table, in terms of names and files. -/
def State.points (s : State O) (l : List Nat) (names : List CStr) : Option (List O) :=
  (s.mounted l (render names)).map s.filesOf

/-- The names of a path, walked one after the other.  `pre` are the names
walked, and `os` the files of the union they lead to. -/
def lookPath (K : Kinds O) (look : O → CStr → Except Errno O)
    (points : List CStr → Option (List O)) :
    List CStr → List O → List CStr → Except Errno (List O)
  | _, os, [] => .ok os
  | pre, os, name :: rest =>
    match lookFrom K look name .enotdir os with
    | .error e => .error e
    | .ok o =>
      lookPath K look points (pre ++ [name]) ((points (pre ++ [name])).getD [o]) rest

/-- The walk from the root, or from what is mounted there. -/
def lookNames (K : Kinds O) (look : O → CStr → Except Errno O)
    (points : List CStr → Option (List O)) (root : List O) (names : List CStr) :
    Except Errno (List O) :=
  lookPath K look points [] ((points []).getD root) names

/-- A result is a location of these files, or both are the same error. -/
def Leads (s : State O) : Except Errno Location → Except Errno (List O) → Prop
  | .ok loc, .ok os => s.Files loc os
  | .error e, .error e' => e = e'
  | _, _ => False

/-- The references that come with a result. -/
def taken : Except Errno Location → List Nat
  | .ok loc => loc
  | .error _ => []

section Resolution

variable {K : Kinds O} {fs : Fs O} {s s' : State O} {tbl : Nat → List Nat} {x : List Nat} {i : Nat}
  {n : Namespace}

theorem Rep.mounted_inUse (h : Rep s tbl) (hf : s.Fresh) {canon : CStr} {loc : Location}
    (hm : s.mounted (tbl i) canon = some loc) : Sized loc ∧ ∀ v ∈ loc, s.InUse x v := by
  obtain ⟨p, hp, rfl⟩ := Option.map_eq_some_iff.mp hm
  obtain ⟨m, hm⟩ := h.there i p (List.mem_of_find?_eq_some hp)
  rw [State.entry_of hm]
  exact ⟨h.mountLoc p m hm, fun v hv => inUse_mount hf hm hv⟩

theorem mounted_quiet (hq : Quiet x s s') (l : List Nat) (canon : CStr) :
    s'.mounted l canon = s.mounted l canon := by
  unfold State.mounted State.entry
  rw [hq.mount]

theorem Rep.points_quiet (h : Rep s tbl) (hf : s.Fresh) (hq : Quiet x s s') (i : Nat) :
    s'.points (tbl i) = s.points (tbl i) := by
  funext names
  unfold State.points
  rw [mounted_quiet hq]
  cases hm : s.mounted (tbl i) (render names) with
  | none => rfl
  | some loc =>
    rw [Option.map_some, Option.map_some, filesOf_quiet hq (h.mounted_inUse hf hm).2]

/-- `apply_mount`: the references move to what is mounted there. -/
theorem goes_applyMount (hr : Rep s tbl) {loc : Location} (h : Acct K s (loc ++ x))
    (hn : s.space i = some n) (canon : CStr) (hloc : Sized loc) :
    Goes (applyMount K i canon loc) s fun r s' => Acct K s' (r ++ x) ∧ Quiet x s s' ∧ Sized r ∧
      ∀ os, s.Files loc os →
        s'.Files r (((s.mounted (tbl i) canon).map s.filesOf).getD os) := by
  refine .gets_bind hn (.bind ((goes_findMount hr h.fresh hn canon).mono ?_))
  rintro r s1 ⟨rfl, rfl⟩
  unfold State.mounted
  cases hp : (tbl i).find? fun p => (s1.entry p).1 = canon with
  | none => exact .pure ⟨h, .refl _ _, hloc, fun os hos => hos⟩
  | some p =>
    obtain ⟨m, hm⟩ := hr.there i p (List.mem_of_find?_eq_some hp)
    have hused : ∀ y, ∀ v ∈ m.loc, s1.InUse y v := fun y v hv => inUse_mount h.fresh hm hv
    refine .gets_bind hm (.bind (.bind ((goes_locationRef m.loc h (hused _)).mono ?_)))
    rintro - s2 ⟨h2, hq2⟩
    have hswap : Acct K s2 (loc ++ (m.loc ++ x)) := by
      refine h2.recount fun v => ?_
      simp only [List.count_append]
      omega
    refine .pure (.bind ((goes_locationRelease loc hswap).mono ?_))
    rintro - s3 ⟨h3, hq3⟩
    have hle : ∀ y v, x.count v ≤ (y ++ x).count v := fun y v =>
      List.Sublist.count_le v (List.sublist_append_right y x)
    refine .pure ⟨h3, (hq2.mono (hle loc)).trans h.fresh (hq3.mono (hle m.loc)),
      hr.mountLoc p m hm, fun os _ => ?_⟩
    rw [Option.map_some, State.entry_of hm, Option.map_some]
    refine .quiet ?_ hq3 fun v hv => .of_mem (List.mem_append_left x hv)
    exact .quiet (files_filesOf h (hused _)) hq2 (hused _)

theorem take_names {name : CStr} (hn : IsName name) (rest : List CStr) :
    (name ++ rest.flatMap (47 :: ·)).takeWhile (· ≠ 47) = name ∧
      (name ++ rest.flatMap (47 :: ·)).dropWhile (· ≠ 47) = rest.flatMap (47 :: ·) := by
  have hpass : ∀ c ∈ name, decide (c ≠ 47) = true := by
    intro c hc
    rw [decide_eq_true_eq]
    rintro rfl
    exact hn.2 hc
  rw [List.takeWhile_append_of_pos hpass, List.dropWhile_append_of_pos hpass]
  cases rest with
  | nil => simp
  | cons r rest => simp

/-- The loop of `ns_resolve` walks the names, and ends with the references of its
result. -/
theorem goes_resolveFrom {points : List CStr → Option (List O)} (names : List CStr) :
    ∀ {s : State O} (left : Nat) (pre : List CStr) (loc : Location), Rep s tbl →
      Acct K s (loc ++ x) → s.space i = some n → Sized loc → (∀ a ∈ names, IsName a) →
      names.length ≤ left → s.points (tbl i) = points →
      Goes (resolveFrom K fs i left ((names.flatMap (47 :: ·)).drop 1) (pre.flatMap (47 :: ·)) loc) s
        fun r s' => Acct K s' (taken r ++ x) ∧ Quiet x s s' ∧ (∀ loc', r = .ok loc' → Sized loc') ∧
          ∀ look os, fs.Shows look → s.Files loc os →
            Leads s' r (lookPath K look points pre os names) := by
  induction names with
  | nil =>
    intro s left pre loc _ h _ hloc _ _ _
    have hend : resolveFrom K fs i left [] (pre.flatMap (47 :: ·)) loc = pure (.ok loc) := by
      cases left with
      | zero => rfl
      | succ left => rfl
    rw [List.flatMap_nil, List.drop_nil, hend]
    refine .pure ⟨h, .refl _ _, ?_, fun look os _ hos => hos⟩
    rintro loc' ⟨⟩
    exact hloc
  | cons name rest ih =>
    intro s left pre loc hr h hn hloc hnames hleft hpoints
    cases left with
    | zero => exact absurd hleft (by simp)
    | succ left =>
      have hname := hnames name List.mem_cons_self
      have hdrop : ((name :: rest).flatMap (47 :: ·)).drop 1 = name ++ rest.flatMap (47 :: ·) := rfl
      have hpre : pre.flatMap (47 :: ·) ++ 47 :: name = (pre ++ [name]).flatMap (47 :: ·) := by
        simp
      have hrender : render (pre ++ [name]) = (pre ++ [name]).flatMap (47 :: ·) :=
        render_of_ne_nil (by simp)
      have hloc_used : ∀ v ∈ loc, s.InUse (loc ++ x) v := fun v hv =>
        .of_mem (List.mem_append_left x hv)
      have hle : ∀ y v, x.count v ≤ (y ++ x).count v := fun y v =>
        List.Sublist.count_le v (List.sublist_append_right y x)
      rw [hdrop, resolveFrom, if_neg (by simp [hname.1]), (take_names hname rest).1,
        (take_names hname rest).2]
      simp only [hpre]
      refine .bind ((goes_walkFrom name loc .enotdir h hloc_used).mono ?_)
      rintro r s1 ⟨h1, hq1, hv1⟩
      have hswap : Acct K s1 (loc ++ (gained r ++ x)) := by
        refine h1.recount fun v => ?_
        simp only [List.count_append]
        omega
      refine .bind ((goes_locationRelease loc hswap).mono ?_)
      rintro - s2 ⟨h2, hq2⟩
      have hq : Quiet x s s2 := (hq1.mono (hle loc)).trans h.fresh (hq2.mono (hle (gained r)))
      cases r with
      | error e =>
        refine .pure ⟨h2, hq, fun _ hc => (nomatch hc), fun look os hlook hos => ?_⟩
        rw [lookPath, (hv1 look os hlook hos).of_error]
        rfl
      | ok w =>
        have hn2 : s2.space i = some n := hq.space ▸ hn
        have h₂' : Acct K s2 ([w] ++ x) := h2
        refine .bind ((goes_applyMount (hr.quiet hq) h₂' hn2 _ (sized_single w)).mono ?_)
        rintro loc3 s3 ⟨h3, hq3, hsized, hv3⟩
        refine (ih left (pre ++ [name]) loc3 ((hr.quiet hq).quiet hq3) h3 (hq3.space ▸ hn2)
          hsized (List.forall_mem_cons.mp hnames).2
          (Nat.le_of_succ_le_succ hleft) ?_).mono ?_
        · rw [(hr.quiet hq).points_quiet h2.fresh hq3, hr.points_quiet h.fresh hq, hpoints]
        · rintro r s4 ⟨h4, hq4, hs4, hv4⟩
          refine ⟨h4, hq.trans h.fresh (hq3.trans h2.fresh hq4), hs4, fun look os hlook hos => ?_⟩
          obtain ⟨o, ho, hw⟩ := (hv1 look os hlook hos).of_ok
          have hw2 : s2.Files [w] [o] := by
            refine .quiet (.cons hw .nil) hq2 fun v hv => ?_
            exact .of_mem (List.mem_append_left x hv)
          have hfiles := hv3 [o] hw2
          rw [← hrender] at hfiles
          have hp := congrFun (hr.points_quiet h.fresh hq i) (pre ++ [name])
          rw [State.points, hpoints] at hp
          rw [hp] at hfiles
          rw [lookPath, ho]
          exact hv4 look _ hlook hfiles

theorem length_le_render (names : List CStr) : names.length ≤ (render names).length := by
  cases names with
  | nil => exact Nat.zero_le _
  | cons a names =>
    rw [render_of_ne_nil (by simp)]
    generalize a :: names = l
    induction l with
    | nil => exact le_rfl
    | cons b l ih =>
      simp only [List.flatMap_cons, List.length_append, List.length_cons]
      omega

/-- `ns_resolve` finds the files that its names lead to, and ends with the
references of its result and no others. -/
theorem goes_nsResolve (hr : Rep s tbl) (h : Acct K s x) (hn : s.space i = some n) (path : CStr) :
    Goes (nsResolve K fs i path) s fun r s' => Acct K s' (taken (r.map Prod.fst) ++ x) ∧
      Quiet x s s' ∧ (∀ loc canon, r = .ok (loc, canon) → Sized loc ∧ cleanPath path = .ok canon) ∧
      ∀ look, fs.Shows look → Leads s' (r.map Prod.fst)
        ((cleanNames path).bind (lookNames K look (s.points (tbl i)) (s.filesOf [n.root]))) := by
  unfold nsResolve
  rw [cleanPath_eq]
  cases hc : cleanNames path with
  | error e =>
    exact .pure ⟨h, .refl _ _, fun _ _ hc => (nomatch hc), fun look _ => rfl⟩
  | ok names =>
    have hnames := cleanNames_isName hc
    have hroot : s.InUse x n.root := inUse_root h.fresh hn
    have hrest : (render names).drop 1 = (names.flatMap (47 :: ·)).drop 1 := by
      cases names with
      | nil => rfl
      | cons a names => rw [render_of_ne_nil (by simp)]
    refine .gets_bind hn (.bind ((goes_vnodeRef h hroot).mono ?_))
    rintro - s1 ⟨h1, hq1⟩
    have hn1 : s1.space i = some n := hq1.space ▸ hn
    have hr1 := hr.quiet hq1
    have h₁' : Acct K s1 ([n.root] ++ x) := h1
    refine .bind ((goes_applyMount hr1 h₁' hn1 [47] (sized_single n.root)).mono ?_)
    rintro loc s2 ⟨h2, hq2, hsized, hv2⟩
    have hpoints : s2.points (tbl i) = s.points (tbl i) := by
      rw [hr1.points_quiet h1.fresh hq2, hr.points_quiet h.fresh hq1]
    have hgo : Goes (resolveFrom K fs i _ _ _ loc) s2 _ :=
      goes_resolveFrom names (render names).length [] loc (hr1.quiet hq2) h2
        (hq2.space ▸ hn1) hsized hnames (length_le_render names) hpoints
    rw [← hrest] at hgo
    refine .bind (hgo.mono ?_)
    rintro r s3 ⟨h3, hq3, hs3, hv3⟩
    have hq : Quiet x s s3 := hq1.trans h.fresh (hq2.trans h1.fresh hq3)
    have hvalue : ∀ look, fs.Shows look → Leads s3 r
        (lookNames K look (s.points (tbl i)) (s.filesOf [n.root]) names) := by
      intro look hlook
      have hfile : s1.Files [n.root] (s.filesOf [n.root]) := by
        have hused : ∀ v ∈ [n.root], s.InUse x v := fun v hv =>
          (List.mem_singleton.mp hv) ▸ hroot
        exact .quiet (files_filesOf h hused) hq1 hused
      have hstart := hv2 _ hfile
      have hp := congrFun (hr.points_quiet h.fresh hq1 i) []
      rw [State.points, render_nil] at hp
      rw [hp] at hstart
      exact hv3 look _ hlook hstart
    cases r with
    | error e => exact .pure ⟨h3, hq, fun _ _ hc => (nomatch hc), hvalue⟩
    | ok loc' =>
      refine .pure ⟨h3, hq, ?_, hvalue⟩
      rintro loc'' canon ⟨⟩
      exact ⟨hs3 loc' rfl, rfl⟩

end Resolution

end ManiOS.Vfs
