import ManiOS.Vfs.Objects

/-!
# Changes to mount tables

A namespace's table is changed by `ns_set_mount` and `ns_remove_mount`, copied
by `ns_fork` and freed by `ns_unref`.  Each of them keeps the counts and the
tables right (`Sound`), on its error paths too, and touches one namespace only.
-/

namespace ManiOS.Vfs

open ManiOS.Lib List Option
open Function (update update_self update_of_ne)
open State (nextOf entry entry_of link)

variable {O : Type}

/-! ## Mounting -/

section Mounting

variable {K : Kinds O} {s s' : State O} {tbl tbl' : Nat → List Nat} {x : List Nat} {i : Nat}
  {n : Namespace} {m : Mount} {p : Nat}

theorem goes_kmalloc (h : Acct K s x) :
    Goes kmalloc s fun r s' => Acct K s' x ∧ Quiet x s s' ∧ s'.node = s.node ∧
      ∀ p, r = some p → p < s'.brk ∧ s'.space p = none ∧ s'.mount p = none ∧ s'.file p = none := by
  refine .get_bind (.modify_bind (.pure ⟨h.grown, quiet_grown x s, rfl, fun p hp => ?_⟩))
  split at hp
  · cases hp
    exact ⟨Nat.lt_succ_self _, h.fresh s.brk le_rfl⟩
  · cases hp

theorem goes_seekEnd (h : Rep s tbl) (hf : s.Fresh) (hn : s.space i = some n) :
    Goes (seekMount (fun _ => false) s.brk none n.mounts) s fun r s' =>
      s' = s ∧ r.1 = (tbl i).getLast? := by
  refine (goes_seekMount h _ (tbl i) s.brk [] n.mounts rfl (h.linked i n hn)
    (h.length_le hf hn)).mono ?_
  rintro r s1 ⟨rfl, a, b, hab, rfl, -, hb⟩
  refine ⟨rfl, ?_⟩
  cases b with
  | nil => rw [hab, append_nil, nil_append]
  | cons p b =>
    obtain ⟨m, hm⟩ := h.there i p (by rw [hab]; simp)
    exact absurd (hb p m rfl hm) (by simp)

theorem Rep.edits_replace (h : Rep s tbl) (hp : p ∈ tbl i)
    (hm : s.mount p = some m) {loc : Location} (hloc : Sized loc) :
    Edits i (tbl i) (tbl i) s (s.withMount p (some { m with loc := loc })) where
  node := rfl
  own := rfl
  made := rfl
  file := rfl
  space _ _ := rfl
  mount q hq _ := update_of_ne (fun he : q = p => hq (he ▸ hp)) _ _
  gone q hq hq' := absurd hq hq'
  fresh q hq := .inl hq
  there q hq := by
    by_cases he : q = p
    · subst he
      exact ⟨_, update_self _ _ _, hloc⟩
    · obtain ⟨m', hm'⟩ := h.there i q hq
      exact ⟨m', (update_of_ne he _ _).trans hm', h.mountLoc q m' hm'⟩
  linked n hn := by
    refine (h.linked i n hn).congr fun q _ => ?_
    unfold nextOf State.withMount
    by_cases he : q = p
    · subst he
      simp [hm]
    · simp [update_of_ne he]
  unused hn := h.unused i hn

theorem Rep.edits_append (h : Rep s tbl) (hn : s.space i = some n)
    (hp : s.mount p = none) (hloc : Sized m.loc) (hnext : m.next = none) :
    Edits i (tbl i) (tbl i ++ [p]) s
      ((s.withMount p (some m)).link i (tbl i).getLast? (some p)) := by
  have hnew : p ∉ tbl i := by
    intro hc
    obtain ⟨m', hm'⟩ := h.there i p hc
    rw [hp] at hm'
    cases hm'
  have hself : (s.withMount p (some m)).mount p = some m := update_self _ _ _
  have hother : ∀ q, q ≠ p → (s.withMount p (some m)).mount q = s.mount q :=
    fun q hq => update_of_ne hq _ _
  have hlast : ∀ q, (tbl i).getLast? = some q → ∃ m', (s.withMount p (some m)).mount q = some m' := by
    intro q hq
    have hmem := mem_of_getLast? hq
    obtain ⟨m', hm'⟩ := h.there i q hmem
    exact ⟨m', (hother q fun he => hnew (he ▸ hmem)).trans hm'⟩
  have hout : ∀ q, q ∉ tbl i → (tbl i).getLast? ≠ some q := fun q hq he =>
    hq (mem_of_getLast? he)
  exact {
    node := link_node
    own := link_own
    made := link_made
    file := link_file
    space := fun j hj => link_space_of_ne hj
    mount := fun q hq hq' => by
      rw [link_mount_of_ne (hout q hq)]
      exact hother q fun he => hq' (by simp [he])
    gone := fun q hq hq' => absurd (mem_append_left _ hq) hq'
    fresh := fun q hq => by
      rcases mem_append.mp hq with hq | hq
      · exact .inl hq
      · exact .inr (mem_singleton.mp hq ▸ hp)
    there := fun q hq => by
      rcases mem_append.mp hq with hq | hq
      · obtain ⟨m', hm'⟩ := h.there i q hq
        obtain ⟨k, hk⟩ := link_mount (i := i) (v := some p)
          ((hother q fun he => hnew (he ▸ hq)).trans hm')
        exact ⟨_, hk, h.mountLoc q m' hm'⟩
      · rw [mem_singleton.mp hq, link_mount_of_ne (hout p hnew), hself]
        exact ⟨m, rfl, hloc⟩
    linked := fun n' hn' => by
      have hn1 : (s.withMount p (some m)).space i = some n := hn
      rw [link_space_self hn1] at hn'
      cases hn'
      have hnextOf : (s.withMount p (some m)).nextOf = update s.nextOf p none := by
        funext q
        by_cases he : q = p
        · subst he
          simp [nextOf, hself, hnext]
        · simp [nextOf, hother q he, update_of_ne he]
      rw [link_nextOf hlast, hnextOf]
      have hl : Linked s.nextOf n.mounts (tbl i ++ []) := by
        rw [append_nil]
        exact h.linked i n hn
      exact hl.insert (by rwa [append_nil])
    unused := fun hc => by
      have hn1 : (s.withMount p (some m)).space i = some n := hn
      rw [link_space_self hn1] at hc
      cases hc }

/-- The namespace has this root and this count. -/
def State.SpaceLike (i : Nat) (n : Namespace) (s : State O) : Prop :=
  ∃ n', s.space i = some n' ∧ n'.root = n.root ∧ n'.refs = n.refs

/-- The table of a namespace was changed, and nothing else. -/
def Retabled (K : Kinds O) (x : List Nat) (i : Nat) (n : Namespace) (tbl : Nat → List Nat)
    (s s' : State O) : Prop :=
  ∃ tbl', Sound K s' tbl' x ∧ Local i s tbl s' tbl' ∧ s'.SpaceLike i n

/-- A change of one table leaves the counts of the other namespaces and of files. -/
theorem Local.alive (h : Local i s tbl s' tbl') (ha : Alive s)
    (hi : ∀ n', s'.space i = some n' → 0 < n'.refs) : Alive s' := by
  refine ⟨fun j n' hn' => ?_, fun f z hz => ha.file f z (h.file ▸ hz)⟩
  by_cases hj : j = i
  · subst hj
    exact hi n' hn'
  · exact ha.space j n' (h.space j hj ▸ hn')

theorem Local.alive_like (h : Local i s tbl s' tbl') (hn : s.space i = some n)
    (hsame : s'.SpaceLike i n) (ha : Alive s) : Alive s' := by
  refine h.alive ha fun n' hn' => ?_
  obtain ⟨n1, hn1, -, hrefs⟩ := hsame
  rw [hn'] at hn1
  cases hn1
  exact hrefs ▸ ha.space i n hn

/-- A new mount, linked in at the end of a table.  Its references are those that
came with its location. -/
theorem goes_appendMount (h : Sound K s tbl (m.loc ++ x)) (hn : s.space i = some n)
    {c : Nat} (hlt : c < s.brk) (hc : s.mount c = none) (hloc : Sized m.loc)
    (hnext : m.next = none) {α : Type} {rest : Act (State O) α} {post : α → State O → Prop}
    (hrest : ∀ s', Sound K s' (update tbl i (tbl i ++ [c])) x →
      Local i s tbl s' (update tbl i (tbl i ++ [c])) →
      s'.SpaceLike i n → s'.entry c = (m.path, m.loc) → (∀ q ∈ tbl i, s'.entry q = s.entry q) →
        Goes rest s' post) :
    Goes (do
      storeLink i (tbl i).getLast? (some c)
      rest) (s.withMount c (some m)) post := by
  have he := h.rep.edits_append hn hc hloc hnext
  have hacct : Acct K (s.withMount c (some m)) x := by
    refine h.acct.withMount hlt fun v => ?_
    simp only [hc, elim_some, elim_none, count_append]
    omega
  have hothers : ∀ q ∈ tbl i, (s.withMount c (some m)).mount q = s.mount q := by
    intro q hq
    refine update_of_ne ?_ _ _
    rintro rfl
    obtain ⟨m', hm'⟩ := h.rep.there i q hq
    rw [hc] at hm'
    cases hm'
  have hprev : ∀ q, (tbl i).getLast? = some q → ∃ m', (s.withMount c (some m)).mount q = some m' := by
    intro q hq
    rw [hothers q (mem_of_getLast? hq)]
    exact h.rep.there i q (mem_of_getLast? hq)
  have hn' : (s.withMount c (some m)).space i = some n := hn
  have hlocal := he.isLocal h.rep
  have hsame : ((s.withMount c (some m)).link i (tbl i).getLast? (some c)).SpaceLike i n :=
    ⟨_, link_space_self hn', rfl, rfl⟩
  refine .bind (goes_storeLink hn' hprev (hrest _ ⟨h.rep.edit he, hacct.link hn' hprev,
    hlocal.alive_like hn hsame h.alive⟩ hlocal hsame ?_ fun q hq => ?_))
  · rw [link_entry]
    exact entry_of (update_self _ _ _)
  · rw [link_entry]
    unfold entry
    rw [hothers q hq]

/-- `ns_set_mount`: the location's references go to the table, or are given
back. -/
theorem goes_nsSetMount {loc : Location} (h : Sound K s tbl (loc ++ x)) (hn : s.space i = some n)
    (hloc : Sized loc) (canon : CStr) :
    Goes (nsSetMount K i canon loc) s fun _ => Retabled K x i n tbl s := by
  refine .gets_bind hn (.bind ((goes_findMount h.rep h.acct.fresh hn canon).mono ?_))
  rintro r s1 ⟨rfl, rfl⟩
  cases hp : (tbl i).find? fun p => (s1.entry p).1 = canon with
  | some p =>
    have hmem := mem_of_find?_eq_some hp
    obtain ⟨m, hm⟩ := h.rep.there i p hmem
    have he := h.rep.edits_replace hmem hm hloc
    have hacct : Acct K (s1.withMount p (some { m with loc := loc })) (m.loc ++ x) := by
      refine h.acct.withMount (h.acct.fresh.lt (.inr (.inl (by simp [hm])))) fun v => ?_
      simp only [hm, elim_some, count_append]
      omega
    refine .gets_bind hm (.bind (goes_setMount ?_))
    refine .bind ((goes_locationRelease m.loc hacct).mono ?_)
    rintro - s2 ⟨h2, hq2⟩
    have hlocal := (he.isLocal h.rep).trans (hq2.isLocal hacct.fresh _ i)
    have hsame : s2.SpaceLike i n := ⟨n, by rw [hq2.space]; exact hn, rfl, rfl⟩
    exact .pure ⟨_, ⟨(h.rep.edit he).quiet hq2, h2, hlocal.alive_like hn hsame h.alive⟩, hlocal, hsame⟩
  | none =>
    refine .bind ((goes_kmalloc h.acct).mono ?_)
    rintro r s2 ⟨h2, hq2, -, hr⟩
    have hn2 : s2.space i = some n := hq2.space ▸ hn
    have hrep2 := h.rep.quiet hq2
    have hlocal₂ := hq2.isLocal h.acct.fresh tbl i
    cases r with
    | none =>
      refine .bind ((goes_locationRelease loc h2).mono ?_)
      rintro - s3 ⟨h3, hq3⟩
      have hlocal := hlocal₂.trans (hq3.isLocal h2.fresh _ i)
      have hsame : s3.SpaceLike i n := ⟨n, by rw [hq3.space]; exact hn2, rfl, rfl⟩
      exact .pure ⟨_, ⟨hrep2.quiet hq3, h3, hlocal.alive_like hn hsame h.alive⟩, hlocal, hsame⟩
    | some p =>
      obtain ⟨hlt, -, hnone, -⟩ := hr p rfl
      refine .gets_bind rfl (.bind ((goes_seekEnd hrep2 h2.fresh hn2).mono ?_))
      rintro r s3 ⟨rfl, hlast⟩
      refine .bind (goes_setMount ?_)
      rw [hlast]
      refine goes_appendMount (m := ⟨canon, loc, none⟩) (hq2.sound h h2) hn2 hlt hnone hloc rfl
        fun s' hs' hl' hn' _ _ => ?_
      exact .pure ⟨_, hs', hlocal₂.trans hl', hn'⟩

theorem Rep.edits_remove (h : Rep s tbl) (hn : s.space i = some n) {a b : List Nat}
    (hab : tbl i = a ++ p :: b) (hm : s.mount p = some m) :
    Edits i (tbl i) (a ++ b) s ((s.link i a.getLast? m.next).withMount p none) := by
  have hnd := (h.linked i n hn).nodup
  have hout : p ∉ a ++ b := by
    rw [hab, nodup_middle, nodup_cons] at hnd
    exact hnd.1
  have hsub : ∀ q ∈ a ++ b, q ∈ tbl i := by
    intro q hq
    rw [hab]
    rcases mem_append.mp hq with hq | hq
    · exact mem_append_left _ hq
    · exact mem_append_right _ (mem_cons_of_mem p hq)
  have hother : ∀ q, q ≠ p → ((s.link i a.getLast? m.next).withMount p none).mount q =
      (s.link i a.getLast? m.next).mount q := fun q hq => update_of_ne hq _ _
  have hlast : ∀ q, a.getLast? = some q → ∃ m', s.mount q = some m' := fun q hq =>
    h.there i q (hsub q (mem_append_left b (mem_of_getLast? hq)))
  have hne : ∀ q, q ∈ a ++ b → q ≠ p := fun q hq he => hout (he ▸ hq)
  exact {
    node := link_node
    own := link_own
    made := link_made
    file := link_file
    space := fun j hj => link_space_of_ne hj
    mount := fun q hq _ => by
      have hqp : q ≠ p := by
        rintro rfl
        exact hq (by rw [hab]; simp)
      rw [hother q hqp]
      refine link_mount_of_ne fun hc => hq ?_
      exact hsub q (mem_append_left b (mem_of_getLast? hc))
    gone := fun q hq hq' => by
      have hqp : q = p := by
        rw [hab] at hq
        simp only [mem_append, mem_cons, not_or] at hq hq'
        tauto
      rw [hqp]
      exact update_self _ _ _
    fresh := fun q hq => .inl (hsub q hq)
    there := fun q hq => by
      obtain ⟨m', hm'⟩ := h.there i q (hsub q hq)
      obtain ⟨k, hk⟩ := link_mount (i := i) (v := m.next) hm'
      exact ⟨_, (hother q (hne q hq)).trans hk, h.mountLoc q m' hm'⟩
    linked := fun n' hn' => by
      have hself : (s.link i a.getLast? m.next).space i = some n' := hn'
      rw [link_space_self hn] at hself
      cases hself
      have hl := h.linked i n hn
      rw [hab] at hl
      have hnext : s.nextOf p = m.next := by
        unfold nextOf
        rw [hm]
        rfl
      have hcut := hl.erase
      rw [hnext, ← link_nextOf hlast] at hcut
      refine hcut.congr fun q hq => ?_
      unfold nextOf
      rw [hother q (hne q hq)]
    unused := fun hc => by
      have hself : (s.link i a.getLast? m.next).space i = none := hc
      rw [link_space_self hn] at hself
      cases hself }

/-- A mount is taken out of its table, its references are given back, and it is
freed. -/
theorem goes_dropMount (hr : Rep s tbl) (h : Acct K s x) (hn : s.space i = some n) {a b : List Nat}
    (hab : tbl i = a ++ p :: b) (hm : s.mount p = some m) {α : Type}
    {rest : Act (State O) α} {post : α → State O → Prop}
    (hrest : ∀ s', Rep s' (update tbl i (a ++ b)) → Acct K s' x →
      Local i s tbl s' (update tbl i (a ++ b)) →
      s'.space i = some { n with mounts := rehead n.mounts a.getLast? m.next } →
      Goes rest s' post) : Goes (do
      locationRelease K m.loc
      setMount p none
      rest) (s.link i a.getLast? m.next) post := by
  have he := hr.edits_remove hn hab hm
  have hprev : ∀ q, a.getLast? = some q → ∃ m', s.mount q = some m' := fun q hq =>
    hr.there i q (by rw [hab]; exact mem_append_left _ (mem_of_getLast? hq))
  have hlink : ∃ k, (s.link i a.getLast? m.next).mount p = some { m with next := k } :=
    link_mount hm
  obtain ⟨k, hk⟩ := hlink
  have hacct : Acct K ((s.link i a.getLast? m.next).withMount p none) (m.loc ++ x) := by
    have h1 := h.link (v := m.next) hn hprev
    refine h1.withMount (h1.fresh.lt (.inr (.inl (by simp [hk])))) fun v => ?_
    simp only [hk, elim_some, elim_none, count_append]
    omega
  refine .bind (((NodeOnly.locationRelease m.loc).before (objectOnly_withMount p none)
    (goes_locationRelease m.loc hacct)).mono ?_)
  rintro - s2 ⟨h2, hq2⟩
  refine .bind (goes_setMount (hrest _ ((hr.edit he).quiet hq2) h2
    ((he.isLocal hr).trans (hq2.isLocal hacct.fresh _ i)) ?_))
  rw [hq2.space]
  exact link_space_self hn

/-- `ns_remove_mount`: the references of what was mounted are given back. -/
theorem goes_nsRemoveMount (h : Sound K s tbl x) (hn : s.space i = some n) (canon : CStr) :
    Goes (nsRemoveMount K i canon) s fun _ => Retabled K x i n tbl s := by
  refine .gets_bind hn (.gets_bind rfl (.bind ((goes_seekMount h.rep _ (tbl i) s.brk []
    n.mounts rfl (h.rep.linked i n hn) (h.rep.length_le h.acct.fresh hn)).mono ?_)))
  rintro r s1 ⟨rfl, a, b, hab, rfl, -, -⟩
  cases b with
  | nil => exact .pure ⟨tbl, h, .refl i s1 tbl, n, hn, rfl, rfl⟩
  | cons p b =>
    obtain ⟨m, hm⟩ := h.rep.there i p (by rw [hab]; simp)
    have hprev : ∀ q, a.getLast? = some q → ∃ m', s1.mount q = some m' := fun q hq =>
      h.rep.there i q (by rw [hab]; exact mem_append_left _ (mem_of_getLast? hq))
    refine .gets_bind hm (.bind (goes_storeLink hn hprev ?_))
    refine goes_dropMount h.rep h.acct hn hab hm fun s' hr' ha' hl' hn' => ?_
    exact .pure ⟨_, ⟨hr', ha', hl'.alive_like hn ⟨_, hn', rfl, rfl⟩ h.alive⟩, hl', _, hn', rfl, rfl⟩

/-! ## Freeing and forking -/

theorem goes_freeTable (l : List Nat) :
    ∀ {s : State O} {tbl : Nat → List Nat} {n : Namespace} (left : Nat), Rep s tbl → Acct K s x →
      s.space i = some n → tbl i = l → l.length ≤ left →
      Goes (freeTable K i left) s fun _ s' => ∃ tbl', Rep s' tbl' ∧ Acct K s' x ∧ tbl' i = [] ∧
        Local i s tbl s' tbl' ∧ s'.SpaceLike i n := by
  induction l with
  | nil =>
    intro s tbl n left hr h hn hl _
    have hnone : n.mounts = none := by
      have := hr.linked i n hn
      rw [hl] at this
      exact this
    have hpost : ∃ tbl', Rep s tbl' ∧ Acct K s x ∧ tbl' i = [] ∧ Local i s tbl s tbl' ∧
        s.SpaceLike i n :=
      ⟨tbl, hr, h, hl, .refl i s tbl, n, hn, rfl, rfl⟩
    cases left with
    | zero | succ =>
      refine .gets_bind hn ?_
      rw [hnone]
      exact .pure hpost
  | cons p l ih =>
    intro s tbl n left hr h hn hl hleft
    have hlink := hr.linked i n hn
    rw [hl] at hlink
    obtain ⟨m, hm⟩ := hr.there i p (by rw [hl]; simp)
    cases left with
    | zero => exact absurd hleft (by simp)
    | succ left =>
      refine .gets_bind hn ?_
      simp only [hlink.1]
      refine .gets_bind hm (.bind (goes_setSpace ?_))
      have hstate : s.withSpace i (some { n with mounts := m.next }) = s.link i none m.next := by
        unfold link
        rw [hn]
        rfl
      rw [hstate]
      have hab : tbl i = [] ++ p :: l := hl
      refine goes_dropMount hr h hn hab hm fun s' hr' ha' hl' hn' => ?_
      refine (ih left hr' ha' hn' (update_self _ _ _) (Nat.le_of_succ_le_succ hleft)).mono ?_
      rintro - s'' ⟨tbl'', hr'', ha'', hl'', hlocal'', hn''⟩
      exact ⟨tbl'', hr'', ha'', hl'', hl'.trans hlocal'', hn''⟩

theorem Rep.edits_space (h : Rep s tbl) {r : Option Namespace}
    (hlinked : ∀ n, r = some n → Linked s.nextOf n.mounts (tbl i))
    (hunused : r = none → tbl i = []) : Edits i (tbl i) (tbl i) s (s.withSpace i r) := by
  have hself : (s.withSpace i r).space i = r := update_self _ _ _
  exact {
    node := rfl
    own := rfl
    made := rfl
    file := rfl
    space := fun j hj => update_of_ne hj _ _
    mount := fun _ _ _ => rfl
    gone := fun p hp hp' => absurd hp hp'
    fresh := fun p hp => .inl hp
    there := fun p hp => by
      obtain ⟨m, hm⟩ := h.there i p hp
      exact ⟨m, hm, h.mountLoc p m hm⟩
    linked := fun n hn => hlinked n (hself.symm.trans hn)
    unused := fun hc => hunused (hself.symm.trans hc) }

theorem Rep.withSpace (h : Rep s tbl) {r : Option Namespace}
    (hlinked : ∀ n, r = some n → Linked s.nextOf n.mounts (tbl i))
    (hunused : r = none → tbl i = []) :
    Rep (s.withSpace i r) tbl ∧ Local i s tbl (s.withSpace i r) tbl := by
  have he := h.edits_space hlinked hunused
  have hrep := h.edit he
  have hlocal := he.isLocal h
  rw [Function.update_eq_self] at hrep hlocal
  exact ⟨hrep, hlocal⟩

/-- `ns_unref`: the last reference frees the namespace and what it holds. -/
theorem goes_nsUnref (h : Sound K s tbl x) (hn : s.space i = some n) :
    Goes (nsUnref K i) s fun _ s' => ∃ tbl', Sound K s' tbl' x ∧ Local i s tbl s' tbl' ∧
      (s'.space i ≠ none → Keeps i s tbl s' tbl') ∧ (n.refs = 1 → s'.space i = none) := by
  have hpos := h.alive.space i n hn
  refine .gets_bind hn ?_
  rw [if_neg (ne_of_gt hpos)]
  obtain ⟨hrep, hlocal⟩ := h.rep.withSpace (r := some { n with refs := n.refs - 1 })
    (fun _ heq => by cases heq; exact h.rep.linked i n hn) nofun
  have hself : (s.withSpace i (some { n with refs := n.refs - 1 })).space i =
    some { n with refs := n.refs - 1 } := update_self _ _ _
  have hacct : Acct K (s.withSpace i (some { n with refs := n.refs - 1 })) x := by
    refine h.acct.withSpace (h.acct.fresh.lt (.inl (by simp [hn]))) fun v => ?_
    rw [hn]
    rfl
  refine .bind (goes_setSpace ?_)
  by_cases hlast : n.refs = 1
  · rw [if_pos hlast]
    refine .gets_bind rfl (.bind ((goes_freeTable (tbl i) _ hrep hacct hself rfl
      (hrep.length_le hacct.fresh hself)).mono ?_))
    rintro - s1 ⟨tbl1, hr1, h1, hl1, hlocal₁, n1, hn1, hroot, -⟩
    obtain ⟨hr2, hlocal₂⟩ := hr1.withSpace (r := none) nofun fun _ => hl1
    have hacct2 : Acct K (s1.withSpace i none) (n.root :: x) := by
      refine h1.withSpace (h1.fresh.lt (.inl (by simp [hn1]))) fun v => ?_
      have hroot' : n1.root = n.root := hroot
      simp only [hn1, elim_some, elim_none, count_cons, hroot', beq_iff_eq]
      omega
    refine .bind (((NodeOnly.vnodeUnref n.root).before (objectOnly_withSpace i none)
      (goes_vnodeUnref hacct2)).mono ?_)
    rintro - s2 ⟨h2, hq2⟩
    have hgone : (s2.withSpace i none).space i = none := update_self _ _ _
    have hall := (hlocal.trans hlocal₁).trans (hlocal₂.trans (hq2.isLocal hacct2.fresh tbl1 i))
    refine goes_setSpace ⟨tbl1, ⟨hr2.quiet hq2, h2, hall.alive h.alive fun n' hn' => ?_⟩, hall,
      fun hc => absurd hgone hc, fun _ => hgone⟩
    cases hgone.symm.trans hn'
  · rw [if_neg hlast]
    refine .pure ⟨tbl, ⟨hrep, hacct, hlocal.alive h.alive fun n' hn' => ?_⟩, hlocal, fun _ => ?_,
      fun hc => absurd hc hlast⟩
    · cases hself.symm.trans hn'
      show 0 < n.refs - 1
      omega
    · exact ⟨by rw [hself, hn]; rfl, rfl, fun _ _ => rfl, fun _ _ => rfl⟩

theorem goes_nsCreate (h : Sound K s tbl x) {root : Nat} (hroot : s.InUse x root) :
    Goes (nsCreate root) s fun r s' => Sound K s' tbl x ∧ ∃ k, s.space k = none ∧
      Local k s tbl s' tbl ∧ ∀ i, r = some i → i = k ∧ s'.space i = some ⟨1, root, none⟩ := by
  refine .bind ((goes_kmalloc h.acct).mono ?_)
  rintro r s1 ⟨h1, hq1, -, hr⟩
  cases r with
  | none =>
    refine .pure ⟨hq1.sound h h1, s.brk, (h.acct.fresh s.brk le_rfl).1,
      hq1.isLocal h.acct.fresh tbl _, fun i hc => nomatch hc⟩
  | some i =>
    obtain ⟨hlt, hnone, -, -⟩ := hr i rfl
    refine .bind (goes_setSpace (.bind ?_))
    refine (NodeOnly.vnodeRef root).after (objectOnly_withSpace i (some ⟨1, root, none⟩)) ?_
    refine (goes_vnodeRef h1 ((hq1.inUse h.acct.fresh).mpr hroot)).mono ?_
    rintro - s2 ⟨h2, hq2⟩
    have hq : Quiet x s s2 := hq1.trans h.acct.fresh hq2
    have hr2 := h.rep.quiet hq
    have hnone2 : s2.space i = none := hq2.space ▸ hnone
    obtain ⟨hrep, hlocal⟩ := hr2.withSpace (r := some ⟨1, root, none⟩)
      (fun _ heq => by cases heq; rw [hr2.unused i hnone2]; rfl) nofun
    have hself : (s2.withSpace i (some ⟨1, root, none⟩)).space i = some ⟨1, root, none⟩ :=
      update_self _ _ _
    have hacct : Acct K (s2.withSpace i (some ⟨1, root, none⟩)) x := by
      refine h2.withSpace (lt_of_lt_of_le hlt hq2.brk) fun v => ?_
      simp only [hnone2, elim_some, elim_none, count_cons, beq_iff_eq]
      omega
    refine .pure ⟨⟨hrep, hacct, hlocal.alive (hq.alive h.alive) fun n' hn' => ?_⟩, i,
      hq1.space ▸ hnone, (hq.isLocal h.acct.fresh tbl i).trans hlocal, ?_⟩
    · cases hself.symm.trans hn'
      exact one_pos
    · rintro j ⟨⟩
      exact ⟨rfl, hself⟩

/-- The loop of `ns_fork` copies the mounts in order, as far as there is memory. -/
theorem goes_copyTable {src : Nat} (hsrc : src ≠ i) (rest : List Nat) :
    ∀ {s : State O} {tbl : Nat → List Nat} {n : Namespace} (left : Nat) (cur : Option Nat),
      Sound K s tbl x → s.space i = some n → (∃ pre, tbl src = pre ++ rest) →
      Linked s.nextOf cur rest → rest.length ≤ left →
      Goes (copyTable i left (tbl i).getLast? cur) s fun done s' => ∃ tbl', Sound K s' tbl' x ∧
        Local i s tbl s' tbl' ∧ s'.SpaceLike i n ∧
        (done = true → (tbl' i).map s'.entry = (tbl i ++ rest).map s.entry) := by
  induction rest with
  | nil =>
    intro s tbl n left cur h hn _ hcur _
    cases hcur
    have hend : copyTable i left (tbl i).getLast? none = (pure true : Act (State O) Bool) := by
      cases left with
      | zero => rfl
      | succ left => rfl
    rw [hend]
    exact .pure ⟨tbl, h, .refl i s tbl, ⟨n, hn, rfl, rfl⟩, fun _ => by rw [append_nil]⟩
  | cons p rest ih =>
    intro s tbl n left cur h hn hpre hcur hleft
    obtain ⟨pre, hpre⟩ := hpre
    obtain ⟨rfl, hnext⟩ := hcur
    have hp : p ∈ tbl src := by
      rw [hpre]
      simp
    obtain ⟨m, hm⟩ := h.rep.there src p hp
    cases left with
    | zero => exact absurd hleft (by simp)
    | succ left =>
      refine .gets_bind hm (.bind ((goes_kmalloc h.acct).mono ?_))
      rintro r s1 ⟨h1, hq1, -, hr⟩
      cases r with
      | none =>
        exact .pure ⟨tbl, hq1.sound h h1, hq1.isLocal h.acct.fresh tbl i,
          ⟨n, hq1.space ▸ hn, rfl, rfl⟩, fun hc => nomatch hc⟩
      | some c =>
        obtain ⟨hlt, -, hnone, -⟩ := hr c rfl
        have hused : ∀ v ∈ m.loc, s1.InUse x v := fun v hv =>
          inUse_mount h1.fresh (hq1.mount ▸ hm) hv
        refine .bind (goes_setMount (.bind (.bind ?_)))
        refine (NodeOnly.locationRef m.loc).after
          (objectOnly_withMount c (some { m with next := none })) ?_
        refine (goes_locationRef m.loc h1 hused).mono ?_
        rintro - s2 ⟨h2, hq2⟩
        have hq : Quiet x s s2 := hq1.trans h.acct.fresh hq2
        have hnone2 : s2.mount c = none := hq2.mount ▸ hnone
        have hn2 : s2.space i = some n := hq.space ▸ hn
        have hsound : Sound K s2 tbl (m.loc ++ x) := hq.sound h h2
        refine .pure (goes_appendMount (m := { m with next := none }) hsound hn2
          (lt_of_lt_of_le hlt hq2.brk) hnone2 (h.rep.mountLoc p m hm) rfl
          fun s3 hs3 hl3 hn3 hc3 ho3 => ?_)
        obtain ⟨n3, hn3, hroot3, hrefs3⟩ := hn3
        have hlocal := (hq.isLocal h.acct.fresh tbl i).trans hl3
        have hlast : (update tbl i (tbl i ++ [c]) i).getLast? = some c := by
          rw [update_self, getLast?_concat]
        have hsrc3 : update tbl i (tbl i ++ [c]) src = (pre ++ [p]) ++ rest := by
          rw [update_of_ne hsrc, hpre]
          simp
        -- the mounts after this one are still linked as they were
        have hcur : Linked s3.nextOf m.next rest := by
          have hm' : s.nextOf p = m.next := by
            unfold nextOf
            rw [hm]
            rfl
          rw [← hm', hnext.head_eq]
          cases hs : s.space src with
          | none =>
            rw [h.rep.unused src hs] at hp
            cases hp
          | some k =>
            have hl := hs3.rep.linked src k ((hlocal.space src hsrc).trans hs)
            rw [hsrc3] at hl
            obtain ⟨h', ht⟩ := hl.drop
            exact ht.head_eq ▸ ht
        have hgo := ih left m.next hs3 hn3 ⟨_, hsrc3⟩ hcur (Nat.le_of_succ_le_succ hleft)
        rw [hlast] at hgo
        refine hgo.mono ?_
        rintro done s4 ⟨tbl4, hs4, hl4, ⟨n4, hn4, hroot4, hrefs4⟩, hmap⟩
        refine ⟨tbl4, hs4, hlocal.trans hl4, ⟨n4, hn4, hroot4.trans hroot3,
          hrefs4.trans hrefs3⟩, fun hdone => ?_⟩
        have hkeeps := hlocal.keeps src hsrc
        have hdone3 : (tbl i).map s3.entry = (tbl i).map s.entry := by
          refine map_congr_left fun q hq' => ?_
          rw [ho3 q hq']
          unfold entry
          rw [hq.mount]
        have hrest3 : rest.map s3.entry = rest.map s.entry := by
          refine map_congr_left fun q hq' => hkeeps.entry q ?_
          rw [hpre]
          exact mem_append_right _ (mem_cons_of_mem p hq')
        rw [hmap hdone, update_self, map_append, map_append, map_append,
          map_cons, map_cons, hdone3, hrest3, hc3,
          entry_of hm, append_assoc]
        rfl

/-- `ns_fork`: a namespace with the same root and a copy of the table, or what
was copied is given back. -/
theorem goes_nsFork {src : Nat} (h : Sound K s tbl x) (hn : s.space src = some n) :
    Goes (nsFork K src) s fun r s' => ∃ tbl' k, Sound K s' tbl' x ∧ s.space k = none ∧
      Local k s tbl s' tbl' ∧ ∀ i, r = some i → i = k ∧
        (∃ n', s'.space i = some n' ∧ n'.root = n.root) ∧
        (tbl' i).map s'.entry = (tbl src).map s.entry := by
  refine .gets_bind hn (.bind ((goes_nsCreate h (inUse_root h.acct.fresh hn)).mono ?_))
  rintro r s1 ⟨h1, k, hk, hl1, hr⟩
  cases r with
  | none => exact .pure ⟨tbl, k, h1, hk, hl1, fun i hc => nomatch hc⟩
  | some i =>
    obtain ⟨rfl, hn1⟩ := hr i rfl
    have hsrc : src ≠ i := by
      rintro rfl
      rw [hk] at hn
      cases hn
    have hempty : tbl i = [] := h.rep.unused i hk
    have hsrc1 : s1.space src = some n := (hl1.space src hsrc).trans hn
    have hgo := goes_copyTable hsrc (tbl src) s1.brk n.mounts h1 hn1 ⟨[], rfl⟩
      (h1.rep.linked src n hsrc1) (h1.rep.length_le h1.acct.fresh hsrc1)
    rw [hempty] at hgo
    refine .gets_bind rfl (.bind (hgo.mono ?_))
    rintro done s2 ⟨tbl2, h2, hl2, ⟨n2, hn2, hroot, hrefs⟩, hmap⟩
    cases done with
    | true =>
      refine .pure ⟨tbl2, i, h2, hk, hl1.trans hl2, ?_⟩
      rintro j ⟨⟩
      refine ⟨rfl, ⟨n2, hn2, hroot⟩, ?_⟩
      rw [hmap rfl]
      exact map_congr_left fun q hq => (hl1.keeps src hsrc).entry q hq
    | false =>
      refine .bind ((goes_nsUnref h2 hn2).mono ?_)
      rintro - s3 ⟨tbl3, h3, hl3, -, -⟩
      exact .pure ⟨tbl3, i, h3, hk, (hl1.trans hl2).trans hl3, fun j hc => nomatch hc⟩

end Mounting

end ManiOS.Vfs
