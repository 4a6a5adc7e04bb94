import CapnpcWasm.MemoryFs.Invariant

/-!
# Failed operations and empty writes

A failed operation leaves names, contents and charges as they were, and a write of no
bytes leaves contents as they were, with two exceptions.  An open that may not truncate
the file it has just created fails after creating it.  A write of no bytes beyond the
end of a file fills the file up to its offset.  The mounts here may be staged with
files, so the charge may start over its budget.

`World.Usable` is what holds of such a mount along a run.  From what an operation does
(`Acts`, in `MemoryFs/Effects`) `World.Usable.unharmed` and `World.Usable.harmed` give the
two directions, the second one because both exceptions really change something
(`openFile_of_slips`, `pwrite_fills`).
-/

namespace MemoryFs

open Sdk

/-! ## Staged mounts -/

/-- Every name has a node. -/
def Disk.Linked (d : Disk) : Prop := ∀ name n, d.lookup name = some n → n < d.heap.length

section

variable {d d' : Disk} {name : Name} {mode : FileMode} {data : List UInt8}

/-- A new name is linked to a new node. -/
theorem Disk.Linked.add (h : d.Linked) : (d.add name mode data).1.Linked := by
  intro x n hn
  rw [lookup_add] at hn
  rw [length_add]
  split at hn
  · cases hn
    exact Nat.lt_succ_self _
  · exact Nat.lt_succ_of_lt (h x n hn)

/-- No effect links a name to a node that is not there. -/
theorem Disk.Linked.effect (h : d.Linked) (he : Effect d d') : d'.Linked := by
  cases he with
  | create _ => exact Disk.Linked.add (d := d.charged) h
  | delete _ _ =>
      intro x n hn
      rw [lookup_delete] at hn
      split at hn
      · cases hn
      · exact h x n hn
  | replace hs _ _ _ _ =>
      intro x n hn
      rw [lookup_move] at hn
      split at hn
      · cases hn
        exact h _ _ hs
      · split at hn
        · cases hn
        · exact h x n hn
  | move hs _ _ =>
      intro x n hn
      rw [lookup_move] at hn
      split at hn
      · cases hn
        exact h _ _ hs
      · split at hn
        · cases hn
        · exact h x n hn
  | store _ _ _ _ =>
      intro x n hn
      rw [length_store]
      exact h x n hn

/-- Names stay linked over several effects. -/
theorem Disk.Linked.effects (h : d.Linked) (he : Effects d d') : d'.Linked := by
  induction he with
  | refl => exact h
  | tail _ he ih => exact ih.effect he

/-- A note links nothing. -/
theorem Disk.Linked.notes (h : d.Linked) (b : Option Limit) : (d.notes b).Linked := by
  cases b with
  | none => exact h
  | some b => exact h

/-- A staged file has its directories and itself. -/
theorem Disk.Linked.stage {files : Contents} (h : d.Linked) (name : Name) :
    (Disk.stage files d name).Linked := by
  refine Disk.Linked.add ?_
  generalize ancestors name = directories
  induction directories generalizing d with
  | nil => exact h
  | cons directory directories ih =>
      rw [List.foldl_cons]
      split
      · exact ih h.add
      · exact ih h

/-- So a fresh mount is linked, whatever it is staged with. -/
theorem newMemoryFS_linked (host : Host) (files : Contents) (readOnly : Bool) (limits : Limits) :
    (newMemoryFS host files readOnly limits).Linked := by
  have hstaged : ∀ names : List Name, ∀ d : Disk, d.Linked →
      (names.foldl (Disk.stage files) d).Linked := by
    intro names
    induction names with
    | nil => exact fun d h => h
    | cons name names ih => exact fun d h => ih _ (h.stage name)
  refine hstaged (sortedKeys files) _ (Disk.Linked.add ?_)
  intro x n hn
  change (∅ : Names).lookup x = some n at hn
  rw [AList.lookup_empty] at hn
  cases hn

end

/-! ## A writable mount in use -/

/-- A writable mount, staged with files and not used yet. -/
def mounted (host : Host) (files : Contents) (limits : Limits) : World :=
  { toDisk := newMemoryFS host files false limits, files := [] }

/-- What any writable mount keeps in use. -/
structure World.Usable (w : World) : Prop where
  writable : w.fs.readOnly = false
  linked : w.toDisk.Linked
  held : w.Held

section

variable {w w' : World} {events : List Event} {event : Event}

/-- One event, as what it does to the disk. -/
theorem World.Usable.acts (h : w.Usable) (hs : Does w event w') :
    Acts w.toDisk w'.toDisk w.fs.limits event.1 event.2 ∧ w'.Held :=
  step_acts hs h.writable h.linked h.held

/-- The step lemma. -/
theorem World.Usable.step (h : w.Usable) (hs : Does w event w') : w'.Usable := by
  obtain ⟨ha, hheld⟩ := h.acts hs
  obtain ⟨d, b, he, hd, _⟩ := ha.effects
  refine ⟨?_, ?_, hheld⟩
  · rw [hd, (notes_extends d b).readOnly, he.extends.readOnly]
    exact h.writable
  · rw [hd]
    exact (h.linked.effects he).notes b

/-- The run lemma. -/
theorem usable_of_runs {host : Host} {files : Contents} {limits : Limits}
    (h : Runs (mounted host files limits) events w) : w.Usable := by
  refine Trace.invariant (fun _ _ _ hu hs => World.Usable.step hu hs) h ?_
  refine ⟨rfl, newMemoryFS_linked host files false limits, ?_⟩
  intro f hf
  cases hf

end

/-! ## What fails after a change -/

section

variable {d : Disk} {f : MemoryFile} {offset : Int}

/-- A note changes neither names nor contents nor charges. -/
theorem notes_contents (d : Disk) (b : Option Limit) :
    (d.notes b).fs.nodes = d.fs.nodes ∧ (d.notes b).heap = d.heap ∧
      (d.notes b).fs.used = d.fs.used ∧ (d.notes b).fs.created = d.fs.created := by
  cases b with
  | none => exact ⟨rfl, rfl, rfl, rfl⟩
  | some b => exact ⟨rfl, rfl, rfl, rfl⟩

/-- The open of a file that it may not truncate has created the file when it fails. -/
theorem openFile_of_slips {name : Name} {flag : Oflag} {perm : Nat}
    (hw : d.fs.readOnly = false) (h : (Op.openFile name flag perm).slips d) :
    ∃ d' e, d.openFile name flag perm = (d', .error e) ∧ d'.fs.created = d.fs.created + 1 := by
  obtain ⟨hc, ht, hdir, hover, r, hres, hadm⟩ := h
  obtain ⟨p, hp, hpd⟩ := hadm.parent
  have hparent : d.parent r = (d, .ok ()) := by
    simp only [Disk.parent, hp, hpd, ↓reduceIte]
  have hcharge : d.chargeEntry r = (d.charged, .ok ()) := by
    rw [Disk.chargeEntry, if_neg (Nat.not_lt.mpr hadm.short), if_neg (Nat.not_le.mpr hadm.charge)]
    rfl
  have hnode : d.openNode r false flag perm =
      ((d.charged.add r (.regular perm) []).1, .ok d.heap.length) := by
    simp only [Disk.openNode, hadm.absent, hc, hdir, hparent, Disk.create, hcharge,
      Outcome.andThen_ok, not_true_eq_false, Bool.false_eq_true, ↓reduceIte]
    rfl
  have hfile : (d.charged.add r (.regular perm) []).1.isDir d.heap.length = false :=
    congrArg (fun node : Node => node.mode.dir) (deref_add (d := d.charged))
  have hsize : (d.charged.add r (.regular perm) []).1.deref d.heap.length =
      { data := [], mode := .regular perm, ino := d.fs.nextIno, dev := d.fs.dev } :=
    deref_add (d := d.charged)
  unfold Disk.openFile
  rw [hc, hres, Outcome.andThen_ok]
  simp only [hw, hnode, Outcome.andThen_ok, hfile, hdir, ht, Bool.false_eq_true, false_and,
    and_false, ↓reduceIte]
  rcases hover with hwr | hover
  · refine ⟨(d.charged.add r (.regular perm) []).1, .EBADF, ?_, rfl⟩
    simp [MemoryFile.truncate, hwr]
  · cases hwr : flag.writable with
    | false =>
        refine ⟨(d.charged.add r (.regular perm) []).1, .EBADF, ?_, rfl⟩
        simp [MemoryFile.truncate]
    | true =>
        refine ⟨(d.charged.add r (.regular perm) []).1.noted .outputBytes, .ERANGE, ?_, rfl⟩
        have hroom : ((d.charged.add r (.regular perm) []).1.fs.limits.outputBytes : Int) -
            (d.charged.add r (.regular perm) []).1.fs.used < 0 := by
          show (d.fs.limits.outputBytes : Int) - (d.fs.used + (0 : Nat)) < 0
          omega
        simp [MemoryFile.truncate, hfile, hsize, hroom, Disk.exceeded]

/-- An offset past the end of the file that the budgets have room for. -/
structure Disk.FillsTo (d : Disk) (f : MemoryFile) (offset : Int) : Prop where
  isOpen : f.closed = false
  writable : f.writable
  past : d.size f.node < offset
  budget : offset ≤ d.fs.limits.outputBytes
  room : offset - d.size f.node ≤ d.fs.limits.outputBytes - d.fs.used

/-- A write of nothing within the budget is the filling of the file, if there is any. -/
theorem pwrite_nil (hc : f.closed = false) (hw : f.writable = true) (hoff : 0 ≤ offset)
    (hb : offset ≤ d.fs.limits.outputBytes) : f.pwrite d [] offset =
      (if d.size f.node < offset then f.truncate d offset else (d, .ok ())).andThen fun d _ =>
        (d.store f.node (MemoryFile.overwrite (d.deref f.node).data offset.toNat []) 0, .ok 0) := by
  have hbad : ¬(f.closed = true ∨ ¬f.writable = true) := by simp [hc, hw]
  have hin : ¬(offset < 0 ∨ (d.fs.limits.outputBytes : Int) < offset ∨
      (d.fs.limits.outputBytes : Int) - offset < ([] : List UInt8).length) := by
    simp only [List.length_nil]
    omega
  unfold MemoryFile.pwrite
  rw [if_neg hbad]
  dsimp only
  rw [if_neg hin]
  simp only [List.length_nil, Int.natCast_zero, Int.add_zero, Nat.zero_min]

/-- No bytes overwrite nothing. -/
theorem overwrite_nil {data : List UInt8} {offset : Nat} :
    MemoryFile.overwrite data offset [] = data := by
  simp [MemoryFile.overwrite]

/-- Storing what a node has changes no contents. -/
theorem store_data {n m : Pointer} (hn : n < d.heap.length) :
    ((d.store n (d.deref n).data 0).deref m).data = (d.deref m).data := by
  by_cases h : m = n
  · subst h
    rw [deref_store hn]
  · rw [deref_store_of_ne h]

/-- A write of no bytes past the end leaves a longer file. -/
theorem pwrite_fills (hf : d.Holds f) (h : d.FillsTo f offset) :
    ((f.pwrite d [] offset).1.size f.node : Int) = offset := by
  have hpast := h.past
  have hroom := h.room
  rw [pwrite_nil h.isOpen h.writable (by omega) h.budget, if_pos hpast]
  have ht : (f.truncate d offset).Ends _ _ := truncate_ends hf
  cases hr : f.truncate d offset with
  | mk d' r =>
      cases r with
      | error e =>
          obtain ⟨_, ⟨_, hbad⟩ | ⟨_, hneg⟩ | ⟨_, hover⟩⟩ := ht.of_error d' e hr
          · rw [h.isOpen, h.writable] at hbad
            simp at hbad
          · omega
          · omega
      | ok u =>
          obtain ⟨_, _, _, _, data, rfl, hlen⟩ := ht.of_ok d' u hr
          rw [Outcome.andThen_ok, overwrite_nil, size_store (by rw [length_store]; exact hf.node)]
          rw [deref_store hf.node]
          exact hlen

/-- A write of nothing that does not fill the file changes no contents. -/
theorem pwrite_empty (hf : d.Holds f) (h : ¬d.FillsTo f offset) (n : Pointer) :
    ((f.pwrite d [] offset).1.deref n).data = (d.deref n).data := by
  have hnote : ∀ b, ((d.notes b).deref n).data = (d.deref n).data := by
    intro b
    rw [Disk.deref, (notes_contents d b).2.1, Disk.deref]
  by_cases hopen : f.closed = true ∨ ¬f.writable = true
  · rw [MemoryFile.pwrite, if_pos hopen]
  · obtain ⟨hc, hw⟩ : f.closed = false ∧ f.writable = true := by simpa using hopen
    by_cases hin : 0 ≤ offset ∧ offset ≤ d.fs.limits.outputBytes
    · rw [pwrite_nil hc hw hin.1 hin.2]
      split
      · next hpast =>
        cases hr : f.truncate d offset with
        | mk d' r =>
            cases r with
            | error e =>
                rw [Outcome.andThen_error, ((truncate_ends hf).of_error d' e hr).1]
                exact hnote _
            | ok u =>
                obtain ⟨_, _, _, hroom, _⟩ := (truncate_ends hf).of_ok d' u hr
                exact absurd ⟨hc, hw, hpast, hin.2, hroom⟩ h
      · rw [Outcome.andThen_ok, overwrite_nil]
        exact store_data hf.node
    · have hout : offset < 0 ∨ (d.fs.limits.outputBytes : Int) < offset ∨
          (d.fs.limits.outputBytes : Int) - offset < ([] : List UInt8).length := by omega
      rw [MemoryFile.pwrite, if_neg hopen]
      dsimp only
      rw [if_pos hout]
      split
      · rfl
      · exact hnote (some .outputBytes)

end

/-! ## Every operation -/

/-- The offset of a write of no bytes. -/
def FileOp.emptyAt (d : Disk) (f : MemoryFile) : FileOp → Option Int
  | .write [] => some (if f.appendMode then d.size f.node else f.offset)
  | .pwrite [] offset => some offset
  | _ => none

/-- A write of no bytes on one of the handles that fills its file up to its offset. -/
def Op.fills (w : World) : Op → Prop
  | .file h op => ∃ f offset, w.files[h]? = some f ∧ op.emptyAt w.toDisk f = some offset ∧
      w.toDisk.FillsTo f offset
  | _ => False

/-- A write whose buffer is empty. -/
def Op.writesNothing : Op → Bool
  | .file _ (.write []) => true
  | .file _ (.pwrite [] _) => true
  | _ => false

/-- A failed operation changed no names, contents or charges, and a write of no bytes
changed no contents. -/
structure Unharmed (w w' : World) (op : Op) (a : Answer) : Prop where
  failed : ∀ e, a = .error e → w'.fs.nodes = w.fs.nodes ∧
    (∀ n, (w'.deref n).data = (w.deref n).data) ∧ w'.fs.used = w.fs.used ∧
    w'.fs.created = w.fs.created
  empty : op.writesNothing → ∀ n, (w'.deref n).data = (w.deref n).data

section

variable {d : Disk} {f g : MemoryFile} {w w' : World} {op : Op} {a : Answer} {offset : Int}

/-- The condition is on the node and on the handle being open. -/
theorem Disk.FillsTo.same (h : d.FillsTo g offset) (hs : Same f g) (hc : g.closed = f.closed) :
    d.FillsTo f offset where
  isOpen := hc ▸ h.isOpen
  writable := hs.writable ▸ h.writable
  past := hs.node ▸ h.past
  budget := h.budget
  room := hs.node ▸ h.room

/-- A write of no bytes is a `pwrite` of the handle at the offset it takes. -/
theorem apply_emptyAt {op : FileOp} {d' : Disk} (h : op.emptyAt d f = some offset)
    (happly : op.apply d f = some (d', g, a)) :
    ∃ g, Same f g ∧ g.closed = f.closed ∧ d' = (g.pwrite d [] offset).1 := by
  cases op with
  | write buf =>
      cases buf with
      | nil =>
          refine ⟨if f.appendMode then { f with offset := (d.size f.node : Int) } else f, ?_⟩
          cases h
          simp only [FileOp.apply, MemoryFile.write, Option.some.injEq, Prod.mk.injEq] at happly
          obtain ⟨rfl, -⟩ := happly
          split
          · refine ⟨⟨rfl, rfl, rfl⟩, rfl, ?_⟩
            dsimp only
            split
            · next hr => rw [hr]
            · next hr => rw [hr]
          · refine ⟨⟨rfl, rfl, rfl⟩, rfl, ?_⟩
            split
            · next hr => rw [hr]
            · next hr => rw [hr]
      | cons b buf => cases h
  | pwrite buf o =>
      cases buf with
      | nil =>
          cases h
          cases happly
          exact ⟨f, .refl f, rfl, rfl⟩
      | cons b buf => cases h
  | _ => cases h

/-- An empty write has an offset it is made at. -/
theorem emptyAt_of_writesNothing {h : Nat} {op : FileOp} (hop : (Op.file h op).writesNothing)
    (d : Disk) (f : MemoryFile) : ∃ offset, op.emptyAt d f = some offset := by
  cases op with
  | write buf =>
      cases buf with
      | nil => exact ⟨_, rfl⟩
      | cons b buf => cases hop
  | pwrite buf offset =>
      cases buf with
      | nil => exact ⟨_, rfl⟩
      | cons b buf => cases hop
  | _ => cases hop

/-- Only an empty write has such an offset. -/
theorem writesNothing_of_emptyAt {h : Nat} {op : FileOp} (he : op.emptyAt d f = some offset) :
    (Op.file h op).writesNothing := by
  cases op with
  | write buf =>
      cases buf with
      | nil => rfl
      | cons b buf => cases he
  | pwrite buf offset =>
      cases buf with
      | nil => rfl
      | cons b buf => cases he
  | _ => cases he

/-- Without the two exceptions nothing is harmed. -/
theorem World.Usable.unharmed (hu : w.Usable) (hs : Does w (op, a) w')
    (hslip : ¬op.slips w.toDisk) (hfill : ¬op.fills w) : Unharmed w w' op a where
  failed := by
    rintro e rfl
    obtain ⟨b, hd⟩ := ((hu.acts hs).1.failure e rfl).resolve_right hslip
    obtain ⟨hn, hh, hused, hc⟩ := notes_contents w.toDisk b
    rw [hd]
    refine ⟨hn, fun n => ?_, hused, hc⟩
    rw [Disk.deref, hh, Disk.deref]
  empty := by
    intro hop n
    cases op with
    | file h op =>
        obtain ⟨f, d, g, hf, happly, rfl⟩ := World.step_file.mp hs
        obtain ⟨offset, he⟩ := emptyAt_of_writesNothing hop w.toDisk f
        obtain ⟨g, hsame, hc, rfl⟩ := apply_emptyAt he happly
        have hheld := hu.held f (List.mem_of_getElem? hf)
        refine pwrite_empty (hheld.same hsame) ?_ n
        exact fun hg => hfill ⟨f, offset, hf, he, hg.same hsame hc⟩
    | _ => cases hop

/-- Each of the two harms. -/
theorem World.Usable.harmed (hu : w.Usable) (hs : Does w (op, a) w')
    (h : Unharmed w w' op a) : ¬op.slips w.toDisk ∧ ¬op.fills w := by
  refine ⟨?_, ?_⟩
  · intro hslip
    cases op with
    | openFile name flag perm =>
        obtain ⟨d', e, hopen, hcreated⟩ := openFile_of_slips hu.writable hslip
        have hstep : w.step (.openFile name flag perm) = some ({ w with toDisk := d' }, .error e) := by
          rw [World.step, World.openFile, hopen]
        dsimp only [Does] at hs
        rw [hstep] at hs
        cases hs
        have : d'.fs.created = w.fs.created := (h.failed e rfl).2.2.2
        omega
    | _ => exact hslip
  · intro hfill
    cases op with
    | file k op =>
        obtain ⟨f, offset, hf, he, hfills⟩ := hfill
        obtain ⟨f', d, g, hf', happly, rfl⟩ := World.step_file.mp hs
        rw [hf] at hf'
        cases hf'
        obtain ⟨g, hsame, hc, rfl⟩ := apply_emptyAt he happly
        have hheld := hu.held f (List.mem_of_getElem? hf)
        have hfills' : w.toDisk.FillsTo g offset :=
          hfills.same ⟨hsame.node.symm, hsame.name.symm, hsame.writable.symm⟩ hc.symm
        have hsize := pwrite_fills (hheld.same hsame) hfills'
        have hdata := h.empty (writesNothing_of_emptyAt he) g.node
        have hpast := hfills'.past
        rw [Disk.size, hdata] at hsize
        rw [Disk.size] at hpast
        omega
    | _ => exact hfill

end

/-- In every reachable state of a writable mount, an operation fails without a change and
writes nothing without a change exactly where it neither creates a file that it then fails
to truncate nor writes nothing beyond the end of a file. -/
theorem unharmed_iff (host : Host) (files : Contents) (limits : Limits) (events : List Event)
    (w : World) (h : Runs (mounted host files limits) events w) (op : Op) (a : Answer) (w' : World)
    (hs : Does w (op, a) w') :
    Unharmed w w' op a ↔ ¬op.slips w.toDisk ∧ ¬op.fills w :=
  ⟨(usable_of_runs h).harmed hs, fun hc => (usable_of_runs h).unharmed hs hc.1 hc.2⟩

/-- An open for reading that creates a file and truncates it. -/
def createTruncated : Op := .openFile [97] { O_CREAT := true, O_TRUNC := true } 0o644

/-- The open that creates and then refuses to truncate. -/
theorem unharmed_iff_sample : ∃ w a w', Does w (createTruncated, a) w' ∧
    (Unharmed w w' createTruncated a ↔
      ¬createTruncated.slips w.toDisk ∧ ¬createTruncated.fills w) := by
  refine ⟨mounted ⟨[], 0⟩ ∅ defaultLimits, _, _, rfl, ?_⟩
  exact unharmed_iff ⟨[], 0⟩ ∅ defaultLimits [] _ .nil createTruncated _ _ rfl

/-- The open fails, and the file it created stays. -/
theorem failed_open_creates : ¬∀ (limits : Limits) (events : List Event) (w : World),
    Runs (fresh 0 limits) events w → ∀ (op : Op) (a : Answer) (w' : World),
      Does w (op, a) w' → Unharmed w w' op a := by
  intro h
  have hopen : ((fresh 0 defaultLimits).openFile [97] { O_CREAT := true, O_TRUNC := true } 0o644).2 =
      .error .EBADF := by decide +kernel
  have hu := h defaultLimits [] _ .nil createTruncated _ _ rfl
  have hc := (hu.failed .EBADF hopen).2.2.2
  exact absurd hc (by decide +kernel)

end MemoryFs
