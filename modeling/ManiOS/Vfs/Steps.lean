import ManiOS.Vfs.Mounts

/-!
# What the calls do to the counts

One statement for each call of `vfs.c`: it does not go wrong, it keeps the
counts and the tables right on every path through it, and it changes the table
of one namespace at most.
-/

namespace ManiOS.Vfs

open ManiOS.Lib List
open Function (update update_self update_of_ne)

variable {O : Type} {K : Kinds O} {fs : Fs O} {s s' s'' : State O} {tbl : Nat → List Nat}
  {x y : List Nat} {i : Nat} {n : Namespace}

/-! ## Creating -/

/-- The same state with another history. -/
def State.withMade (s : State O) (l : List (O × CStr)) : State O := { s with made := l }

/-- As `Quiet`, but files may have been made. -/
def Calm (x : List Nat) (s s' : State O) : Prop := Quiet x s (s'.withMade s.made)

theorem Quiet.calm (h : Quiet x s s') : Calm x s s' := { h with made := rfl }

theorem Calm.trans (h : Calm x s s') (hf : s.Fresh) (h' : Calm x s' s'') : Calm x s s'' := by
  have hs : Quiet x (s'.withMade s.made) (s''.withMade s.made) := { h' with made := rfl }
  exact Quiet.trans h hf hs

theorem Calm.mono (h : Calm y s s') (hle : ∀ v, x.count v ≤ y.count v) : Calm x s s' :=
  Quiet.mono h hle

theorem Calm.sound {z : List Nat} (h : Calm x s s') (hs : Sound K s tbl y) (ha : Acct K s' z) :
    Sound K s' tbl z := by
  have hr := hs.rep.quiet h
  exact ⟨{ hr with }, ha,
    ⟨(Quiet.alive h hs.alive).space, (Quiet.alive h hs.alive).file⟩⟩

theorem Calm.keeps (h : Calm x s s') (hf : s.Fresh) (tbl : Nat → List Nat) (j : Nat) :
    Keeps j s tbl s' tbl :=
  { Quiet.keeps h hf tbl j with }

theorem goes_createIn (h : Acct K s x) {dir : Nat} (hdir : s.InUse x dir) (leaf : CStr)
    (type : VnodeType) :
    Goes (createIn K fs dir leaf type) s fun r s' => Acct K s' (gained r ++ x) ∧ Calm x s s' ∧
      ∀ e, r = .error e → s'.made = s.made := by
  have hstay : ∀ e, Acct K s (gained (.error e) ++ x) ∧ Calm x s s ∧
      ∀ e', (.error e : Except Errno Nat) = .error e' → s.made = s.made := fun e =>
    ⟨h, (Quiet.refl x s).calm, fun _ _ => rfl⟩
  obtain ⟨nd, hnd, -⟩ := h.node hdir
  refine .gets_bind hnd ?_
  by_cases htype : K.type nd.file ≠ .dir
  · rw [if_pos htype]
    exact .pure (hstay _)
  rw [if_neg htype]
  by_cases hcreate : (!K.hasCreate nd.file) = true
  · rw [if_pos hcreate]
    exact .pure (hstay _)
  rw [if_neg hcreate]
  refine .get_bind ?_
  cases hc : fs.create s.node s.brk dir leaf type with
  | error e => exact .pure (hstay e)
  | ok wo =>
    refine .bind ((goes_issue h (fs.create_issues _ _ _ _ _ _ _ hc)).mono ?_)
    rintro - s1 ⟨h1, hq1, -⟩
    refine .modify_bind (.pure ⟨{ h1 with }, ?_, fun e hc => nomatch hc⟩)
    exact { hq1 with made := rfl }

theorem goes_parentOf (h : Sound K s tbl x) (hn : s.space i = some n) (path : CStr) :
    Goes (parentOf K fs i path) s fun r s' => Acct K s' (taken (r.map Prod.fst) ++ x) ∧
      Quiet x s s' ∧ ∀ loc leaf, r = .ok (loc, leaf) →
        Sized loc ∧ ∃ canon, cleanPath path = .ok canon := by
  unfold parentOf
  cases hc : cleanPath path with
  | error e => exact .pure ⟨h.acct, .refl _ _, fun _ _ hc => nomatch hc⟩
  | ok canon =>
    simp only
    by_cases hleaf : leafOf canon = []
    · rw [if_pos hleaf]
      exact .pure ⟨h.acct, .refl _ _, fun _ _ hc => nomatch hc⟩
    rw [if_neg hleaf]
    refine .bind ((goes_nsResolve h.rep h.acct hn (dirOf canon)).mono ?_)
    rintro r s1 ⟨h1, hq1, hs1, -⟩
    cases r with
    | error e => exact .pure ⟨h1, hq1, fun _ _ hc => nomatch hc⟩
    | ok lc =>
      refine .pure ⟨h1, hq1, ?_⟩
      rintro loc leaf ⟨⟩
      exact ⟨(hs1 lc.1 lc.2 rfl).1, canon, rfl⟩

theorem goes_firstMember {loc : Location} (hloc : Sized loc) {post : Nat → State O → Prop}
    (h : ∀ v ∈ loc, post v s) : Goes (firstMember loc) s post := by
  cases loc with
  | nil => exact absurd rfl hloc.1
  | cons v loc => exact .gets rfl (h v mem_cons_self)

theorem goes_vfsCreate (h : Sound K s tbl x) (hn : s.space i = some n) (path : CStr)
    (type : VnodeType) :
    Goes (vfsCreate K fs i path type) s fun r s' => Acct K s' (gained r ++ x) ∧ Calm x s s' ∧
      (∀ e, r = .error e → s'.made = s.made) ∧
      ∀ v, r = .ok v → ∃ canon, cleanPath path = .ok canon := by
  unfold vfsCreate
  by_cases htype : type ≠ .file ∧ type ≠ .dir
  · rw [if_pos htype]
    exact .pure ⟨h.acct, (Quiet.refl x s).calm, fun _ _ => rfl, fun _ hc => nomatch hc⟩
  rw [if_neg htype]
  refine .bind ((goes_parentOf h hn path).mono ?_)
  rintro r s1 ⟨h1, hq1, hs1⟩
  cases r with
  | error e => exact .pure ⟨h1, hq1.calm, fun _ _ => hq1.made, fun _ hc => nomatch hc⟩
  | ok ll =>
    obtain ⟨loc, leaf⟩ := ll
    obtain ⟨hsized, hclean⟩ := hs1 loc leaf rfl
    refine .bind (goes_firstMember hsized fun dir hdir => ?_)
    have hused : s1.InUse (loc ++ x) dir := .of_mem (mem_append_left x hdir)
    refine .bind ((goes_createIn h1 hused leaf type).mono ?_)
    rintro r s2 ⟨h2, hq2, hm2⟩
    have hswap : Acct K s2 (loc ++ (gained r ++ x)) := by
      refine h2.recount fun v => ?_
      simp only [Except.map, taken, count_append]
      omega
    have hle : ∀ (y : List Nat) v, x.count v ≤ (y ++ x).count v := fun y v =>
      List.Sublist.count_le v (sublist_append_right y x)
    refine .bind ((goes_locationRelease loc hswap).mono ?_)
    rintro - s3 ⟨h3, hq3⟩
    refine .pure ⟨h3, ?_, fun e he => ?_, fun _ _ => hclean⟩
    · exact hq1.calm.trans h.acct.fresh ((hq2.mono (hle loc)).trans h1.fresh
        (hq3.mono (hle (gained r))).calm)
    · rw [hq3.made, hm2 e he, hq1.made]

/-! ## Opening and closing -/

theorem goes_openCheck (h : Acct K s x) {v : Nat} (hv : s.InUse x v) (access flags : UInt32)
    (existed : Bool) : Goes (openCheck K fs access flags existed v) s fun _ s' => s' = s := by
  obtain ⟨nd, hnd, -⟩ := h.node hv
  refine .gets_bind hnd ?_
  split
  · exact .pure rfl
  split
  · exact .pure rfl
  split
  · split
    · exact .pure rfl
    · exact .get_bind (.pure rfl)
  split
  · exact .pure rfl
  · exact .pure rfl

/-- The path leads nowhere, whatever the file systems show. -/
def Nowhere (K : Kinds O) (fs : Fs O) (i : Nat) (n : Namespace) (path : CStr)
    (tbl : Nat → List Nat) (s : State O) : Prop :=
  ∀ look, fs.Shows look → (cleanNames path).bind
    (lookNames K look (s.points (tbl i)) (s.filesOf [n.root])) = .error .enoent

/-- What `vfs_open` opens is found, or made after the path was found to lead
nowhere. -/
theorem goes_openLocation (h : Sound K s tbl x) (hn : s.space i = some n) (path : CStr)
    (flags : UInt32) : Goes (openLocation K fs i path flags) s fun r s' =>
      Acct K s' (taken (r.map Prod.fst) ++ x) ∧ Calm x s s' ∧
      (∀ loc y, r = .ok (loc, y) → Sized loc) ∧
      (s'.made ≠ s.made → flags &&& oCreat ≠ 0 ∧ Nowhere K fs i n path tbl s) := by
  refine .bind ((goes_nsResolve h.rep h.acct hn path).mono ?_)
  rintro r s1 ⟨h1, hq1, hs1, hv1⟩
  cases r with
  | ok lc =>
    refine .pure ⟨h1, hq1.calm, ?_, fun hc => absurd hq1.made hc⟩
    rintro loc y ⟨⟩
    exact (hs1 lc.1 lc.2 rfl).1
  | error e =>
    simp only
    by_cases he : e = .enoent ∧ flags &&& oCreat ≠ 0
    · rw [if_pos he]
      obtain ⟨rfl, hflag⟩ := he
      have hn1 : s1.space i = some n := hq1.space ▸ hn
      have hnowhere : Nowhere K fs i n path tbl s := by
        intro look hlook
        have hl := hv1 look hlook
        cases hr : (cleanNames path).bind
            (lookNames K look (s.points (tbl i)) (s.filesOf [n.root])) with
        | ok os =>
          rw [hr] at hl
          exact hl.elim
        | error e' =>
          rw [hr] at hl
          exact congrArg _ (.symm hl)
      refine .bind ((goes_vfsCreate (hq1.sound h h1) hn1 path .file).mono ?_)
      rintro r s2 ⟨h2, hq2, hm2, hclean⟩
      have hq : Calm x s s2 := hq1.calm.trans h.acct.fresh hq2
      cases r with
      | error e => exact .pure ⟨h2, hq, fun _ _ hc => (nomatch hc), fun _ => ⟨hflag, hnowhere⟩⟩
      | ok v =>
        obtain ⟨canon, hcanon⟩ := hclean v rfl
        simp only [hcanon]
        refine .pure ⟨h2, hq, ?_, fun _ => ⟨hflag, hnowhere⟩⟩
        rintro loc y ⟨⟩
        exact sized_single v
    · rw [if_neg he]
      exact .pure ⟨h1, hq1.calm, fun _ _ hc => (nomatch hc), fun hc => absurd hq1.made hc⟩

theorem file_withFile {f g : Nat} {y : File} {z : Option File} {P : File → Prop}
    (hs : ∀ y, s.file g = some y → P y) (hz : ∀ y, z = some y → P y)
    (hy : (s.withFile f z).file g = some y) : P y := by
  by_cases hg : g = f
  · subst hg
    have hself : (s.withFile g z).file g = z := update_self _ _ _
    exact hz y (hself.symm.trans hy)
  · have hother : (s.withFile f z).file g = s.file g := update_of_ne hg _ _
    exact hs y (hother.symm.trans hy)

theorem Rep.withFile (h : Rep s tbl) {f : Nat} {z : Option File}
    (hz : ∀ y, z = some y → Sized y.loc) : Rep (s.withFile f z) tbl := { h with
  fileLoc g _ hy := file_withFile (h.fileLoc g) hz hy }

theorem Alive.withFile (h : Alive s) {f : Nat} {z : Option File}
    (hz : ∀ y, z = some y → 0 < y.refs) :
    Alive (s.withFile f z) where
  space := h.space
  file g _ hy := file_withFile (h.file g) hz hy

theorem keeps_withFile (j f : Nat) (z : Option File) : Keeps j s tbl (s.withFile f z) tbl :=
  ⟨rfl, rfl, fun _ _ => rfl, fun _ _ => rfl⟩

/-- `vfs_open`: the references of what was found go to the open file, or are
given back. -/
theorem goes_vfsOpen (h : Sound K s tbl x) (hn : s.space i = some n) (path : CStr) (mode : UInt32) :
    Goes (vfsOpen K fs i path mode) s fun _ s' => Sound K s' tbl x ∧ s'.own = s.own ∧
      (∀ j, Keeps j s tbl s' tbl) ∧
      (s'.made ≠ s.made → mode &&& oCreat ≠ 0 ∧ Nowhere K fs i n path tbl s) := by
  unfold vfsOpen
  simp only
  split
  · exact .pure ⟨h, rfl, fun j => .refl j s tbl, fun hc => absurd rfl hc⟩
  refine .bind ((goes_kmalloc h.acct).mono ?_)
  rintro r s1 ⟨h1, hq1, -, hr⟩
  have hs1 := hq1.sound h h1
  cases r with
  | none =>
    exact .pure ⟨hs1, hq1.own, hq1.keeps h.acct.fresh tbl, fun hc => absurd hq1.made hc⟩
  | some f =>
    obtain ⟨hlt, -, -, hfile⟩ := hr f rfl
    refine .bind ((goes_openLocation hs1 (hq1.space ▸ hn) path (mode &&& ~~~3)).mono ?_)
    rintro r s2 ⟨h2, hq2, hsized, hmade2⟩
    have hq : Calm x s s2 := hq1.calm.trans h.acct.fresh hq2
    have hmade : s2.made ≠ s.made → mode &&& oCreat ≠ 0 ∧ Nowhere K fs i n path tbl s := by
      intro hne
      obtain ⟨hflag, hnowhere⟩ := hmade2 (hq1.made ▸ hne)
      refine ⟨fun hc => hflag ?_, fun look hlook => ?_⟩
      · rw [UInt32.and_assoc, UInt32.and_comm (~~~3) oCreat, ← UInt32.and_assoc, hc,
          UInt32.zero_and]
      · have hroot : ∀ v ∈ [n.root], s.InUse x v := fun v hv =>
          (mem_singleton.mp hv) ▸ inUse_root h.acct.fresh hn
        rw [← h.rep.points_quiet h.acct.fresh hq1 i, ← filesOf_quiet hq1 hroot]
        exact hnowhere look hlook
    cases r with
    | error e =>
      exact .pure ⟨hq.sound h h2, hq.own, hq.keeps h.acct.fresh tbl, hmade⟩
    | ok lce =>
      obtain ⟨loc, canon, existed⟩ := lce
      have hloc := hsized loc _ rfl
      have h₂' : Acct K s2 (loc ++ x) := h2
      refine .bind (goes_firstMember hloc fun v hv => ?_)
      refine .bind ((goes_openCheck h₂' (.of_mem (mem_append_left x hv)) _ _ _).mono ?_)
      rintro rc s3 rfl
      cases rc with
      | some e =>
        refine .bind ((goes_locationRelease loc h₂').mono ?_)
        rintro - s4 ⟨h4, hq4⟩
        have hq' : Calm x s s4 := hq.trans h.acct.fresh hq4.calm
        refine .pure ⟨hq'.sound h h4, hq'.own, hq'.keeps h.acct.fresh tbl, fun hne => ?_⟩
        exact hmade (hq4.made ▸ hne)
      | none =>
        have hnone : s3.file f = none := by
          have : s3.file = s.file := hq.file
          rw [this, ← hq1.file]
          exact hfile
        have hs3 := hq.sound h h₂'
        refine .bind (goes_setFile (.pure ⟨⟨hs3.rep.withFile ?_, ?_, ?_⟩, hq.own,
          fun j => (hq.keeps h.acct.fresh tbl j).trans (keeps_withFile j f _), hmade⟩))
        · rintro y ⟨⟩
          exact hloc
        · refine h₂'.withFile (lt_of_lt_of_le hlt hq2.brk) fun v => ?_
          simp only [hnone, Option.elim_some, Option.elim_none, count_append]
          omega
        · refine hs3.alive.withFile ?_
          rintro y ⟨⟩
          exact one_pos

theorem goes_vfsDup (h : Sound K s tbl x) {f : Nat} {z : File} (hz : s.file f = some z) :
    Goes (vfsDup f) s fun _ s' => Sound K s' tbl x ∧ s'.own = s.own ∧
      ∀ j, Keeps j s tbl s' tbl := by
  refine .gets_bind hz (goes_setFile ⟨⟨h.rep.withFile ?_, ?_, h.alive.withFile ?_⟩, rfl,
    fun j => keeps_withFile j f _⟩)
  · rintro y ⟨⟩
    exact h.rep.fileLoc f z hz
  · refine h.acct.withFile (h.acct.fresh.lt (.inr (.inr (by simp [hz])))) fun v => ?_
    rw [hz]
    rfl
  · rintro y ⟨⟩
    exact Nat.succ_pos _

/-- `vfs_close`: the last reference gives back those of the location. -/
theorem goes_vfsClose (h : Sound K s tbl x) {f : Nat} {z : File} (hz : s.file f = some z) :
    Goes (vfsClose K f) s fun _ s' => Sound K s' tbl x ∧ s'.own = s.own ∧
      ∀ j, Keeps j s tbl s' tbl := by
  have hpos := h.alive.file f z hz
  have hlt : f < s.brk := h.acct.fresh.lt (.inr (.inr (by simp [hz])))
  refine .gets_bind hz ?_
  rw [if_neg (ne_of_gt hpos)]
  by_cases hlast : z.refs = 1
  · rw [if_pos hlast]
    have hacct : Acct K (s.withFile f none) (z.loc ++ x) := by
      refine h.acct.withFile hlt fun v => ?_
      simp only [hz, Option.elim_some, Option.elim_none, count_append]
      omega
    have hsound : Sound K (s.withFile f none) tbl (z.loc ++ x) :=
      ⟨h.rep.withFile (fun y hc => nomatch hc), hacct, h.alive.withFile (fun y hc => nomatch hc)⟩
    refine .bind (((NodeOnly.locationRelease z.loc).before (objectOnly_withFile f none)
      (goes_locationRelease z.loc hacct)).mono ?_)
    rintro - s1 ⟨h1, hq1⟩
    exact goes_setFile ⟨hq1.sound hsound h1, hq1.own, fun j =>
      (keeps_withFile j f none).trans (hq1.keeps hacct.fresh tbl j)⟩
  · rw [if_neg hlast]
    refine goes_setFile ⟨⟨h.rep.withFile ?_, ?_, h.alive.withFile ?_⟩, rfl,
      fun j => keeps_withFile j f _⟩
    · rintro y ⟨⟩
      exact h.rep.fileLoc f z hz
    · refine h.acct.withFile hlt fun v => ?_
      rw [hz]
      rfl
    · rintro y ⟨⟩
      show 0 < z.refs - 1
      omega

/-! ## Binding -/

theorem composed_ok {fromDir ontoDir : Bool} {source onto result : Location} {flag : BindFlag}
    (hsource : Sized source) (h : composed fromDir ontoDir source onto flag = .ok result) :
    Sized result ∧ ∀ v ∈ result, v ∈ source ++ onto := by
  have hlen : ∀ l : Location, l ≠ [] → (∀ v ∈ l, v ∈ source ++ onto) →
      (if l.length > unionMax then .error .einval else .ok l : Except Errno Location) = .ok result →
      Sized result ∧ ∀ v ∈ result, v ∈ source ++ onto := by
    intro l hnil hmem hl
    split at hl
    · cases hl
    next hle =>
      cases hl
      exact ⟨⟨hnil, not_lt.mp hle⟩, hmem⟩
  unfold composed at h
  split at h
  · cases h
  split at h
  · cases h
  cases flag with
  | replace => exact hlen source hsource.1 (fun v hv => mem_append_left onto hv) h
  | before => exact hlen (source ++ onto) (by simp [hsource.1]) (fun v hv => hv) h
  | after =>
    refine hlen (onto ++ source) (by simp [hsource.1]) (fun v hv => ?_) h
    exact mem_append.mpr (mem_append.mp hv).symm

/-- `bind_locations`: the references of both locations are used up. -/
theorem goes_bindLocations {source onto : Location} (h : Sound K s tbl (source ++ (onto ++ x)))
    (hn : s.space i = some n) (hsource : Sized source) (honto : Sized onto) (canon : CStr)
    (flag : BindFlag) :
    Goes (bindLocations K i source onto canon flag) s fun _ => Retabled K x i n tbl s := by
  have hused : ∀ v ∈ source ++ onto, s.InUse (source ++ (onto ++ x)) v := by
    intro v hv
    rw [← append_assoc]
    exact .of_mem (mem_append_left x hv)
  -- what is left to do once the table is changed, or is not to be
  have hfinish : ∀ (rc : Option Errno) s1 tbl1, Sound K s1 tbl1 (source ++ (onto ++ x)) →
      Local i s tbl s1 tbl1 → s1.SpaceLike i n →
      Goes (do
        locationRelease K source
        locationRelease K onto
        pure rc) s1 fun _ => Retabled K x i n tbl s := by
    intro rc s1 tbl1 h1 hl1 hn1
    refine .bind ((goes_locationRelease source h1.acct).mono ?_)
    rintro - s2 ⟨h2, hq2⟩
    refine .bind ((goes_locationRelease onto h2).mono ?_)
    rintro - s3 ⟨h3, hq3⟩
    refine .pure ⟨tbl1, hq3.sound (hq2.sound h1 h2) h3, (hl1.trans
      (hq2.isLocal h1.acct.fresh tbl1 i)).trans (hq3.isLocal h2.fresh tbl1 i), ?_⟩
    rw [State.SpaceLike, hq3.space, hq2.space]
    exact hn1
  refine .bind (goes_firstMember hsource fun v hv => ?_)
  obtain ⟨nv, hnv, -⟩ := h.acct.node (hused v (mem_append_left onto hv))
  refine .gets_bind hnv (.bind (goes_firstMember honto fun w hw => ?_))
  obtain ⟨nw, hnw, -⟩ := h.acct.node (hused w (mem_append_right source hw))
  refine .gets_bind hnw ?_
  cases hc : composed (K.type nv.file = .dir) (K.type nw.file = .dir) source onto flag with
  | error e => exact hfinish (some e) s tbl h (.refl i s tbl) ⟨n, hn, rfl, rfl⟩
  | ok result =>
    obtain ⟨hresult, hmem⟩ := composed_ok hsource hc
    refine .bind ((goes_locationRef result h.acct fun v hv => hused v (hmem v hv)).mono ?_)
    rintro - s1 ⟨h1, hq1⟩
    have hs1 := hq1.sound h h1
    refine .bind ((goes_nsSetMount hs1 (hq1.space ▸ hn) hresult canon).mono ?_)
    rintro rc s2 ⟨tbl2, h2, hl2, hn2⟩
    exact hfinish rc s2 tbl2 h2 ((hq1.isLocal h.acct.fresh tbl i).trans hl2) hn2

variable (h : Sound K s tbl x) (hn : s.space i = some n)
include h hn

theorem goes_vfsBind (newPath oldPath : CStr) (flag : BindFlag) :
    Goes (vfsBind K fs i newPath oldPath flag) s fun _ s' => ∃ tbl', Sound K s' tbl' x ∧
      Local i s tbl s' tbl' := by
  refine .bind ((goes_nsResolve h.rep h.acct hn newPath).mono ?_)
  rintro r s1 ⟨h1, hq1, hs1, -⟩
  have hl1 := hq1.isLocal h.acct.fresh tbl i
  cases r with
  | error e => exact .pure ⟨tbl, hq1.sound h h1, hl1⟩
  | ok sc =>
    obtain ⟨source, sourceCanon⟩ := sc
    have hsource := (hs1 source sourceCanon rfl).1
    have h₁' : Acct K s1 (source ++ x) := h1
    have hn1 : s1.space i = some n := hq1.space ▸ hn
    refine .bind ((goes_nsResolve (h.rep.quiet hq1) h₁' hn1 oldPath).mono ?_)
    rintro r s2 ⟨h2, hq2, hs2, -⟩
    have hl2 := hl1.trans (hq2.isLocal h1.fresh tbl i)
    cases r with
    | error e =>
      have h₂' : Acct K s2 (source ++ x) := h2
      refine .bind ((goes_locationRelease source h₂').mono ?_)
      rintro - s3 ⟨h3, hq3⟩
      exact .pure ⟨tbl, hq3.sound (hq2.sound (hq1.sound h h1) h2) h3,
        hl2.trans (hq3.isLocal h2.fresh tbl i)⟩
    | ok oc =>
      obtain ⟨onto, canon⟩ := oc
      have hswap : Acct K s2 (source ++ (onto ++ x)) := by
        refine h2.recount fun v => ?_
        simp only [Except.map, taken, count_append]
        omega
      refine (goes_bindLocations (hq2.sound (hq1.sound h h1) hswap) (hq2.space ▸ hn1) hsource
        (hs2 onto canon rfl).1 canon flag).mono ?_
      rintro rc s3 ⟨tbl3, h3, hl3, -⟩
      exact ⟨tbl3, h3, hl2.trans hl3⟩

theorem goes_vfsMount {root : Nat} (hroot : s.InUse x root) (oldPath : CStr) (flag : BindFlag) :
    Goes (vfsMount K fs i root oldPath flag) s fun _ s' => ∃ tbl', Sound K s' tbl' x ∧
      Local i s tbl s' tbl' := by
  refine .bind ((goes_nsResolve h.rep h.acct hn oldPath).mono ?_)
  rintro r s1 ⟨h1, hq1, hs1, -⟩
  have hl1 := hq1.isLocal h.acct.fresh tbl i
  cases r with
  | error e => exact .pure ⟨tbl, hq1.sound h h1, hl1⟩
  | ok oc =>
    obtain ⟨onto, canon⟩ := oc
    have hroot1 : s1.InUse (onto ++ x) root := by
      refine (hq1.inUse h.acct.fresh).mpr (hroot.mono ?_)
      exact List.Sublist.count_le root (sublist_append_right onto x)
    have h₁' : Acct K s1 (onto ++ x) := h1
    refine .bind ((goes_vnodeRef h₁' hroot1).mono ?_)
    rintro - s2 ⟨h2, hq2⟩
    have h₂' : Acct K s2 ([root] ++ (onto ++ x)) := h2
    refine (goes_bindLocations (hq2.sound (hq1.sound h h1) h₂') (hq2.space ▸ hq1.space ▸ hn)
      (sized_single root) (hs1 onto canon rfl).1 canon flag).mono ?_
    rintro rc s3 ⟨tbl3, h3, hl3, -⟩
    exact ⟨tbl3, h3, (hl1.trans (hq2.isLocal h1.fresh tbl i)).trans hl3⟩

theorem goes_vfsUnbind (oldPath : CStr) :
    Goes (vfsUnbind K i oldPath) s fun _ s' => ∃ tbl', Sound K s' tbl' x ∧
      Local i s tbl s' tbl' := by
  unfold vfsUnbind
  cases cleanPath oldPath with
  | error e => exact .pure ⟨tbl, h, .refl i s tbl⟩
  | ok canon =>
    refine (goes_nsRemoveMount h hn canon).mono ?_
    rintro rc s' ⟨tbl', h', hl', -⟩
    exact ⟨tbl', h', hl'⟩

end ManiOS.Vfs
