import ManiOS.Fat.Operations

/-!
# What only reads

`fat_read`, `fat_walk` and the lookups with which the other operations start
ask for sectors and write none, and of their node they move the cursor only.  So
they leave the volume as it is (`FatM.ReadsOnly.kept`), and do on a volume that takes
no writes what they do on one that does (`FatM.ReadsOnly.writable`).
-/

namespace ManiOS.Fat

open ManiOS.Lib

/-- A query that changes nothing. -/
def SectorOp.Reads : SectorOp → Prop
  | .read _ => True
  | .getHint => True
  | _ => False

/-- A procedure that asks no other queries, and does not change what `f` sees of
its node. -/
abbrev FatM.ReadsOnly {σ α γ : Type} (f : σ → γ) (m : FatM σ α) : Prop :=
  Proc.Asks SectorOp.Reads f m

section Volumes

variable {σ α γ : Type} {f : σ → γ} {m : FatM σ α}

theorem FatM.ReadsOnly.kept (hm : m.ReadsOnly f) (n : σ) (v : Vol) : (onVol m n v).2 = v := by
  refine Proc.Asks.kept hm (fun q v hq => ?_) n v
  cases q with
  | read s => rfl
  | getHint => rfl
  | write s data => exact hq.elim
  | setHint hint => exact hq.elim

theorem FatM.ReadsOnly.failed (hm : m.ReadsOnly f) {n : σ} {v : Vol} {e : Stop}
    (he : (onVol m n v).1.1 = .error e) : ∃ n', onVol m n v = ((.error e, n'), v) := by
  have hv := hm.kept n v
  rcases hrun : onVol m n v with ⟨⟨r, n'⟩, v'⟩
  rw [hrun] at he hv
  obtain rfl : r = .error e := he
  obtain rfl : v' = v := hv
  exact ⟨n', rfl⟩

theorem FatM.ReadsOnly.writable (hm : m.ReadsOnly f) (n : σ) (v : Vol) (ro : Bool) :
    (onVol m n v).1 = (onVol m n { v with readOnly := ro }).1 := by
  refine ((hm n).run_sim (R := fun a b => b = { a with readOnly := ro }) ?_ rfl).1
  rintro q a b hq rfl
  cases q with
  | read s => exact ⟨rfl, rfl⟩
  | getHint => exact ⟨rfl, rfl⟩
  | write s data => exact hq.elim
  | setHint hint => exact hq.elim

end Volumes

/-! ## The functions that read -/

section Reads

variable {σ γ : Type} {f : σ → γ} {g : Geometry}

theorem reads_readSector (s : Nat) : FatM.ReadsOnly f (FatM.readSector s) := by
  refine .bind (.query trivial) fun r => ?_
  cases r with
  | none => exact .throw _
  | some b => exact .pure _

theorem reads_fatByte (off : Nat) : FatM.ReadsOnly f (fatByte g off) :=
  .bind (.query trivial) fun _ => .pure _

theorem reads_fatEntry (c : Nat) : FatM.ReadsOnly f (fatEntry g c) := by
  refine .bind (reads_fatByte _) fun lo => .bind (reads_fatByte _) fun hi => ?_
  split
  · exact .pure _
  · exact .throw _

theorem reads_followChain (left : Nat) : ∀ c, FatM.ReadsOnly f (followChain g left c) := by
  induction left with
  | zero => exact fun c => .pure _
  | succ left ih =>
    intro c
    refine .ite (.throw _) (.bind (reads_fatEntry c) fun next => ?_)
    exact .ite (.pure _) (.ite (.throw _) (ih next))

/-- A node without its cursor. -/
def FatNode.still (n : FatNode) : FatNode := { n with cursorIndex := 0, cursorCluster := 0 }

theorem reads_clusterAt (index : Nat) : FatM.ReadsOnly FatNode.still (clusterAt g index) := by
  refine .bind .get fun n => .ite (.ite (.pure _) (.throw _)) ?_
  refine .bind (reads_followChain _ _) fun r => ?_
  cases r with
  | none => exact .pure _
  | some c => exact .bind (.modify fun _ => rfl) fun _ => .pure _

theorem reads_readTarget (off : Nat) : FatM.ReadsOnly FatNode.still (readTarget g off) :=
  .bind .get fun _ => .ite (.ite (.pure _) (.pure _))
    (.bind (reads_clusterAt _) fun _ => .ite (.pure _) (.pure _))

theorem reads_readChunk (off len : Nat) : FatM.ReadsOnly FatNode.still (readChunk g off len) := by
  refine .bind (reads_readTarget off) fun r => ?_
  cases r with
  | none => exact .pure _
  | some s => exact .bind (reads_readSector s) fun _ => .pure _

theorem reads_nodeReadFrom (len left : Nat) :
    ∀ off done buf, FatM.ReadsOnly FatNode.still (nodeReadFrom g len left off done buf) := by
  induction left with
  | zero => exact fun _ _ _ => .pure _
  | succ left ih =>
    intro off done buf
    have hchunk : FatM.ReadsOnly FatNode.still (tryCatch (readChunk g off (len - done))
        fun e => if done ≠ 0 then pure none else throw e) :=
      .tryCatch (reads_readChunk _ _) fun e => .ite (.pure _) (.throw _)
    refine .ite (.bind hchunk fun r => ?_) (.pure _)
    cases r with
    | none => exact .pure _
    | some x => exact ih _ _ _

theorem reads_readSlot (off : Nat) : FatM.ReadsOnly FatNode.still
    (tryCatch (nodeRead g off (fun _ => 0) 32) fun _ => throw (.rc .eio)) :=
  .tryCatch (reads_nodeReadFrom _ _ _ _ _) fun _ => .throw _

theorem reads_refreshEntry : FatM.ReadsOnly (fun _ => ()) (refreshEntry g) := by
  have hread : ∀ off, FatM.ReadsOnly FatNode.still (readEntry g off) := fun off =>
    .bind (reads_readSlot off) fun _ => .ite (.bind (.throw _) fun _ => .pure _) (.pure _)
  refine .bind .get fun n => .ite (.pure _) (.bind (.onLocal (hread _)) fun e => ?_)
  exact .ite (.bind (.throw _) fun _ => .modify fun _ => rfl) (.modify fun _ => rfl)

theorem reads_forEachEntryFrom {τ : Type} (fn : Buf → CStr → Nat → τ → Bool × τ) (left : Nat) :
    ∀ off t, FatM.ReadsOnly FatNode.still (forEachEntryFrom g fn left off t) := by
  induction left with
  | zero => exact fun _ _ => .throw _
  | succ left ih =>
    intro off t
    refine .bind (reads_readSlot off) fun x => .ite (.pure _) (.ite (ih _ _) ?_)
    split
    · exact .pure _
    · exact ih _ _

theorem reads_entryFind (name : CStr) : FatM.ReadsOnly FatNode.still (entryFind g name) := by
  refine .bind (reads_forEachEntryFrom _ _ _ _) fun r => ?_
  cases r with
  | none => exact .throw _
  | some hit => exact .pure _

theorem reads_refuseExisting (name : CStr) : FatM.ReadsOnly FatNode.still (refuseExisting g name) :=
  .tryCatch (.bind (reads_entryFind name) fun _ => .throw _) fun _ => .ite (.pure _) (.throw _)

theorem reads_fatWalk (mem : Bool) (name : CStr) :
    FatM.ReadsOnly FatNode.still (fatWalk g mem name) :=
  .bind (reads_entryFind name) fun _ =>
    .ite (.bind (.throw _) fun _ => .bind .get fun _ => .pure _) (.bind .get fun _ => .pure _)

theorem reads_fatRead (off : Nat) (buf : Buf) (len : Nat) :
    FatM.ReadsOnly FatNode.still (fatRead g off buf len) := by
  refine .bind .get fun n => .ite (.pure _) ?_
  refine .tryCatch (.bind (reads_nodeReadFrom _ _ _ _ _) fun _ => .pure _) fun e => ?_
  cases e with
  | rc e => exact .pure _
  | hang => exact .throw _

end Reads

end ManiOS.Fat
