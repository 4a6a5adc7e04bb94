import CapnpcWasm.MemoryFs.Effects

/-!
# Reading under two output budgets

The compiler reads its inputs from read-only mounts, and an output budget should not
change what it reads.  Two runs of the same operations, under limits that differ only in
the output budgets, go through the same handles and get the same answers as long as no
seek aims at an offset that one of the two byte budgets admits and the other does not.
`Seek` is the one operation on a read-only file that consults a budget, so the condition
is exact.  A run ends where the host panics, which it does under both limits or neither.

`Agree d limits o o'` compares an outcome with the same call under other limits: the disk is
unchanged and the results are equal.  It has a lemma for each operation on names, and
`apply_agree` for those on a handle.  `World.Reads.step` is the step of two runs side by side,
`World.Reads.differ` what a straddling seek does, and `World.Reads.record_iff` the run.
-/

namespace MemoryFs

open Sdk

/-- The disk under other limits. -/
def Disk.under (d : Disk) (limits : Limits) : Disk := { d with fs := { d.fs with limits := limits } }

/-- A mount in use, under other limits. -/
def World.under (w : World) (limits : Limits) : World := { w with toDisk := w.toDisk.under limits }

/-! ## Calls that leave the disk as it is -/

/-- Two calls, one under either limits, that give the same and change nothing. -/
structure Agree {A : Type} (d : Disk) (limits : Limits) (o o' : Outcome Disk Errno A) : Prop where
  same : ∃ r, o = (d, r) ∧ o' = (d.under limits, r)

section

variable {A B : Type} {d : Disk} {limits : Limits} {o o' : Outcome Disk Errno A}

/-- A result that depends on no limit. -/
theorem Agree.intro (r : Except Errno A) : Agree d limits (d, r) (d.under limits, r) :=
  ⟨r, rfl, rfl⟩

/-- Two calls in sequence. -/
theorem Agree.andThen {k k' : Disk → A → Outcome Disk Errno B} (h : Agree d limits o o')
    (hk : ∀ a, Agree d limits (k d a) (k' (d.under limits) a)) :
    Agree d limits (o.andThen k) (o'.andThen k') := by
  obtain ⟨e | a, rfl, rfl⟩ := h.same
  · exact .intro (.error e)
  · exact hk a

/-- A branch on what both have. -/
theorem Agree.ite {c : Prop} [Decidable c] {p p' : Outcome Disk Errno A}
    (ht : c → Agree d limits o o') (hf : ¬c → Agree d limits p p') :
    Agree d limits (if c then o else p) (if c then o' else p') := by
  split
  · next h => exact ht h
  · next h => exact hf h

@[simp] theorem under_lookup (name : Name) : (d.under limits).lookup name = d.lookup name := rfl

@[simp] theorem under_deref (n : Pointer) : (d.under limits).deref n = d.deref n := rfl

@[simp] theorem under_isDir (n : Pointer) : (d.under limits).isDir n = d.isDir n := rfl

@[simp] theorem under_size (n : Pointer) : (d.under limits).size n = d.size n := rfl

@[simp] theorem under_readOnly : (d.under limits).fs.readOnly = d.fs.readOnly := rfl

@[simp] theorem under_limits : (d.under limits).fs.limits = limits := rfl

/-- Names are bounded by the path limit, which is the same. -/
theorem under_lookupBound (hl : limits.pathBytes = d.fs.limits.pathBytes) :
    (d.under limits).lookupBound = d.lookupBound := by
  rw [Disk.lookupBound, under_limits, hl, Disk.lookupBound]

/-- A name is checked against that limit only. -/
theorem resolve_agree (hr : d.fs.readOnly = true)
    (hl : limits.pathBytes = d.fs.limits.pathBytes) (name : Name) (create : Bool) :
    Agree d limits (d.resolve name create) ((d.under limits).resolve name create) := by
  unfold Disk.resolve
  rw [under_lookupBound hl, under_readOnly, hr]
  cases guestPath name d.lookupBound with
  | error e =>
      simp only [not_true_eq_false, and_false, ↓reduceIte]
      exact .intro (.error e)
  | ok r => exact .ite (fun _ => .intro (.error .ENOTDIR)) fun _ => .intro (.ok _)

/-- An open on a read-only mount asks for nothing that writes, or is refused. -/
theorem openFile_agree (hr : d.fs.readOnly = true)
    (hl : limits.pathBytes = d.fs.limits.pathBytes) (name : Name) (flag : Oflag) (perm : Nat) :
    ∃ r, d.openFile name flag perm = (d, r) ∧
      (d.under limits).openFile name flag perm = (d.under limits, r) ∧
      ∀ f, r = .ok f → f.writable = false := by
  unfold Disk.openFile
  obtain ⟨e | ⟨r, trailingSlash⟩, h, h'⟩ := (resolve_agree hr hl name flag.O_CREAT).same
  · rw [h, h']
    exact ⟨.error e, rfl, rfl, by rintro f hf; cases hf⟩
  · rw [h, h']
    simp only [Outcome.andThen_ok, under_readOnly, hr]
    split
    · exact ⟨.error .EROFS, rfl, rfl, by rintro f hf; cases hf⟩
    · next hflag =>
      obtain ⟨⟨hw, hc⟩, ht, _⟩ : (flag.writable = false ∧ flag.O_CREAT = false) ∧
          flag.O_TRUNC = false ∧ flag.O_APPEND = false := by
        simpa [and_assoc] using hflag
      simp only [Disk.openNode, under_lookup, hw, hc, ht]
      cases d.lookup r with
      | none => exact ⟨.error .ENOENT, rfl, rfl, by rintro f hf; cases hf⟩
      | some n =>
          simp only [Bool.false_eq_true, false_and, and_false, ↓reduceIte, Outcome.andThen_ok,
            under_isDir]
          by_cases hdir : ¬d.isDir n = true ∧ flag.O_DIRECTORY = true
          · exact ⟨.error .ENOTDIR, if_pos hdir, if_pos hdir, by rintro f hf; cases hf⟩
          · exact ⟨.ok _, if_neg hdir, if_neg hdir, by rintro f hf; cases hf; rfl⟩

/-- `Stat` resolves and looks. -/
theorem stat_agree (hr : d.fs.readOnly = true)
    (hl : limits.pathBytes = d.fs.limits.pathBytes) (name : Name) :
    Agree d limits (d.stat name) ((d.under limits).stat name) := by
  refine (resolve_agree hr hl name false).andThen ?_
  rintro ⟨r, _⟩
  simp only [under_lookup, under_deref]
  cases d.lookup r with
  | none => exact .intro (.error .ENOENT)
  | some n => exact .intro (.ok _)

/-- The walk along a name reads names. -/
theorem probe_under (parts : List Name) (trailingSlash : Bool) (left : Nat) :
    (d.under limits).probe parts trailingSlash left = d.probe parts trailingSlash left := by
  induction left with
  | zero => rfl
  | succ left ih => rw [Disk.probe, Disk.probe, ih, under_lookup]; rfl

/-- `Readlink` resolves and finds no link. -/
theorem readlink_agree (hr : d.fs.readOnly = true)
    (hl : limits.pathBytes = d.fs.limits.pathBytes) (name : Name) :
    Agree d limits (d.readlink name) ((d.under limits).readlink name) := by
  refine .ite (fun _ => .intro (.error .ENOENT)) fun _ => ?_
  refine (resolve_agree hr hl name false).andThen ?_
  rintro ⟨r, trailingSlash⟩
  simp only [probe_under]
  exact .intro (.error _)

/-- `Mkdir` is refused before any budget is asked. -/
theorem mkdir_agree (hr : d.fs.readOnly = true) (name : Name) (perm : Nat) :
    Agree d limits (d.mkdir name perm) ((d.under limits).mkdir name perm) := by
  rw [Disk.mkdir, Disk.mkdir, under_readOnly, hr, if_pos rfl, if_pos rfl]
  exact .intro (.error .EROFS)

/-- `Unlink` is refused before any budget is asked. -/
theorem unlink_agree (hr : d.fs.readOnly = true) (name : Name) :
    Agree d limits (d.unlink name) ((d.under limits).unlink name) := by
  rw [Disk.unlink, Disk.unlink, under_readOnly, hr, if_pos rfl, if_pos rfl]
  exact .intro (.error .EROFS)

/-- `Rename` is refused before any budget is asked. -/
theorem rename_agree (hr : d.fs.readOnly = true) (source target : Name) :
    Agree d limits (d.rename source target) ((d.under limits).rename source target) := by
  rw [Disk.rename, Disk.rename, under_readOnly, hr, if_pos rfl, if_pos rfl]
  exact .intro (.error .EROFS)

end

/-! ## Handles -/

/-- The offset a seek on an open file aims at is one that only one of the byte budgets
admits. -/
def straddles (d : Disk) (f : MemoryFile) (budget : Nat) : FileOp → Prop
  | .seek offset whence => f.closed = false ∧ d.isDir f.node = false ∧
      ∃ t, f.target d offset whence = some t ∧ 0 ≤ t ∧
        ¬(d.fs.limits.outputBytes < t ↔ budget < t)
  | _ => False

section

variable {d : Disk} {limits : Limits} {f : MemoryFile}

/-- An offset that both budgets admit, or neither. -/
theorem seek_agree {offset whence : Int}
    (h : ¬straddles d f limits.outputBytes (.seek offset whence)) :
    f.seek (d.under limits) offset whence = f.seek d offset whence := by
  unfold MemoryFile.seek
  cases hc : f.closed with
  | true => rfl
  | false =>
      rw [under_isDir]
      cases hdir : d.isDir f.node with
      | true => rfl
      | false =>
          have ht : f.target (d.under limits) offset whence = f.target d offset whence := rfl
          simp only [Bool.false_eq_true, ↓reduceIte, ht]
          cases htarget : f.target d offset whence with
          | none => rfl
          | some t =>
              dsimp only
              by_cases hneg : t < 0
              · rw [if_pos (Or.inl hneg), if_pos (Or.inl hneg)]
              · have hiff : (d.fs.limits.outputBytes : Int) < t ↔
                    ((d.under limits).fs.limits.outputBytes : Int) < t := by
                  by_contra hne
                  exact h ⟨hc, hdir, t, htarget, Int.not_lt.mp hneg, hne⟩
                by_cases hover : (d.fs.limits.outputBytes : Int) < t
                · rw [if_pos (Or.inr hover), if_pos (Or.inr (hiff.mp hover))]
                · rw [if_neg (not_or.mpr ⟨hneg, hover⟩),
                    if_neg (not_or.mpr ⟨hneg, fun h' => hover (hiff.mpr h')⟩)]

/-- One of the two seeks fails. -/
theorem seek_straddles {offset whence : Int}
    (h : straddles d f limits.outputBytes (.seek offset whence)) :
    (f.seek (d.under limits) offset whence).2 ≠ (f.seek d offset whence).2 := by
  obtain ⟨hc, hdir, t, htarget, hpos, hne⟩ := h
  have hseek : ∀ d' : Disk, d'.isDir f.node = false → f.target d' offset whence = some t →
      (f.seek d' offset whence).2 =
        if (d'.fs.limits.outputBytes : Int) < t then .error .EINVAL else .ok t := by
    intro d' hd' ht'
    unfold MemoryFile.seek
    rw [hc, hd', ht']
    simp only [Bool.false_eq_true, ↓reduceIte, Int.not_lt.mpr hpos, false_or]
    split
    · rfl
    · rfl
  rw [hseek d hdir htarget, hseek (d.under limits) hdir htarget]
  by_cases hd : (d.fs.limits.outputBytes : Int) < t
  · have hl : ¬((d.under limits).fs.limits.outputBytes : Int) < t :=
      fun hl => hne ⟨fun _ => hl, fun _ => hd⟩
    rw [if_pos hd, if_neg hl]
    nofun
  · have hl : ((d.under limits).fs.limits.outputBytes : Int) < t := by
      by_contra hl
      exact hne ⟨fun hd' => absurd hd' hd, fun hl' => absurd hl' hl⟩
    rw [if_neg hd, if_pos hl]
    nofun

/-- Handles on a read-only mount cannot write. -/
theorem pwrite_refused (d : Disk) (hf : f.writable = false) (buf : List UInt8) (offset : Int) :
    f.pwrite d buf offset = (d, .error .EBADF) := by
  rw [MemoryFile.pwrite, if_pos (.inr (by rw [hf]; exact Bool.false_ne_true))]

/-- Handles on a read-only mount cannot truncate. -/
theorem truncate_refused (d : Disk) (hf : f.writable = false) (size : Int) :
    f.truncate d size = (d, .error .EBADF) := by
  rw [MemoryFile.truncate, if_pos (.inr (by rw [hf]; exact Bool.false_ne_true))]

/-- A write in append mode moves the offset before it is refused. -/
theorem write_refused (d : Disk) (hf : f.writable = false) (buf : List UInt8) :
    f.write d buf = ((d, .error .EBADF),
      if f.appendMode then { f with offset := (d.size f.node : Int) } else f) := by
  have hg : (if f.appendMode then { f with offset := (d.size f.node : Int) } else f).writable =
      false := by
    split
    · exact hf
    · exact hf
  unfold MemoryFile.write
  simp only [pwrite_refused d hg]

/-- A listing does not look at the limits. -/
theorem readdir_under (f : MemoryFile) (n : Int) : f.readdir (d.under limits) n = f.readdir d n := rfl

/-- An operation on a handle that may not write does the same under both limits, and the
handle still may not write, or it panics under both. -/
theorem apply_agree {op : FileOp} (hf : f.writable = false)
    (h : ¬straddles d f limits.outputBytes op) :
    (op.apply d f = none ∧ op.apply (d.under limits) f = none) ∨
      ∃ g a, op.apply d f = some (d, g, a) ∧
        op.apply (d.under limits) f = some (d.under limits, g, a) ∧ g.writable = false := by
  cases op with
  | dev => exact .inr ⟨f, _, rfl, rfl, hf⟩
  | ino => exact .inr ⟨f, _, rfl, rfl, hf⟩
  | isDir => exact .inr ⟨f, _, rfl, rfl, hf⟩
  | isAppend => exact .inr ⟨f, _, rfl, rfl, hf⟩
  | setAppend enable =>
      simp only [FileOp.apply, MemoryFile.setAppend]
      cases f.closed with
      | true => exact .inr ⟨f, _, rfl, rfl, hf⟩
      | false => exact .inr ⟨_, _, rfl, rfl, hf⟩
  | stat => exact .inr ⟨f, _, rfl, rfl, hf⟩
  | read n =>
      refine .inr ⟨_, _, rfl, rfl, ?_⟩
      have hsame : Same f (f.read d n).1 := apply_same (show FileOp.apply d f (.read n) = _ from rfl)
      rw [hsame.writable, hf]
  | pread n offset => exact .inr ⟨f, _, rfl, rfl, hf⟩
  | write buf =>
      refine .inr ⟨if f.appendMode then { f with offset := (d.size f.node : Int) } else f,
        .error .EBADF, ?_, ?_, ?_⟩
      · simp only [FileOp.apply, write_refused d hf, Answer.of]
      · simp only [FileOp.apply, write_refused (d.under limits) hf, Answer.of, under_size]
      · split
        · exact hf
        · exact hf
  | pwrite buf offset =>
      refine .inr ⟨f, .error .EBADF, ?_, ?_, hf⟩
      · simp only [FileOp.apply, pwrite_refused d hf, Answer.of]
      · simp only [FileOp.apply, pwrite_refused _ hf, Answer.of]
  | truncate size =>
      refine .inr ⟨f, .error .EBADF, ?_, ?_, hf⟩
      · simp only [FileOp.apply, truncate_refused d hf, Answer.of]
      · simp only [FileOp.apply, truncate_refused _ hf, Answer.of]
  | seek offset whence =>
      refine .inr ⟨(f.seek d offset whence).1, .of .offset (f.seek d offset whence).2, rfl, ?_, ?_⟩
      · rw [FileOp.apply, seek_agree h]
      · have hsame : Same f (f.seek d offset whence).1 :=
          apply_same (show FileOp.apply d f (.seek offset whence) = _ from rfl)
        rw [hsame.writable, hf]
  | readdir n =>
      -- The page may end past the range of an `int`, which no limit has a part in.
      simp only [FileOp.apply, readdir_under]
      cases hreaddir : f.readdir d n with
      | none => exact .inl ⟨rfl, rfl⟩
      | some r =>
          obtain ⟨g, entries⟩ := r
          refine .inr ⟨g, _, rfl, rfl, ?_⟩
          have happly : FileOp.apply d f (.readdir n) = some (d, g, .of .entries entries) := by
            rw [FileOp.apply, hreaddir, Option.map_some]
          rw [(apply_same happly).writable, hf]
  | close => exact .inr ⟨_, _, rfl, rfl, hf⟩

end

/-! ## Runs -/

/-- What the guest sees until a panic ends its run: each answer, with the handles and their
offsets after it. -/
def World.record (w : World) : List Op → List (Answer × List MemoryFile)
  | [] => []
  | op :: ops =>
      match w.step op with
      | none => []
      | some (w', a) => (a, w'.files) :: w'.record ops

/-- The operation seeks to an offset that only one of the byte budgets admits. -/
def Op.straddles (w : World) (budget : Nat) : Op → Prop
  | .file h op => ∃ f, w.files[h]? = some f ∧ MemoryFs.straddles w.toDisk f budget op
  | _ => False

/-- No operation of the run, up to where it ends, seeks to such an offset. -/
def World.Clear (w : World) (budget : Nat) : List Op → Prop
  | [] => True
  | op :: ops => ¬op.straddles w budget ∧
      match w.step op with
      | none => True
      | some (w', _) => w'.Clear budget ops

/-- A read-only mount in use. -/
structure World.Reads (w : World) : Prop where
  readOnly : w.fs.readOnly = true
  refused : ∀ f ∈ w.files, f.writable = false

section

variable {w : World} {limits : Limits} {op : Op}

/-- An operation on names, as a step of both runs. -/
theorem World.Reads.answer {A : Type} (h : w.Reads) {o o' : Outcome Disk Errno A}
    (ha : Agree w.toDisk limits o o') (value : A → Value) :
    ∃ w₁ a, some (w.answer o value) = some (w₁, a) ∧
      some ((w.under limits).answer o' value) = some (w₁.under limits, a) ∧
      w₁.Reads ∧ w₁.toDisk = w.toDisk := by
  obtain ⟨r, rfl, rfl⟩ := ha.same
  exact ⟨w, _, rfl, rfl, h, rfl⟩

/-- One operation under both limits: the same answer, handles and disk, or none under either. -/
theorem World.Reads.step (h : w.Reads) (hl : limits.pathBytes = w.fs.limits.pathBytes)
    (hs : ¬op.straddles w limits.outputBytes) :
    (w.step op = none ∧ (w.under limits).step op = none) ∨
      ∃ w₁ a, w.step op = some (w₁, a) ∧ (w.under limits).step op = some (w₁.under limits, a) ∧
        w₁.Reads ∧ w₁.toDisk = w.toDisk := by
  cases op with
  | openFile name flag perm =>
      obtain ⟨r, ho, ho', hw⟩ := openFile_agree h.readOnly hl name flag perm
      refine .inr ?_
      have ho' : (w.under limits).toDisk.openFile name flag perm = _ := ho'
      simp only [World.step, World.openFile, ho, ho']
      cases r with
      | error e => exact ⟨w, .error e, rfl, rfl, h, rfl⟩
      | ok f =>
          refine ⟨⟨w.toDisk, w.files ++ [f]⟩, _, rfl, rfl, ⟨h.readOnly, ?_⟩, rfl⟩
          intro g hg
          rcases List.mem_append.mp hg with hg | hg
          · exact h.refused g hg
          · rw [List.mem_singleton.mp hg]
            exact hw f rfl
  | stat name => exact .inr (h.answer (stat_agree h.readOnly hl name) .stat)
  | lstat name => exact .inr (h.answer (stat_agree h.readOnly hl name) .stat)
  | readlink name => exact .inr (h.answer (readlink_agree h.readOnly hl name) .name)
  | mkdir name perm => exact .inr (h.answer (mkdir_agree h.readOnly name perm) _)
  | unlink name => exact .inr (h.answer (unlink_agree h.readOnly name) _)
  | rename source target => exact .inr (h.answer (rename_agree h.readOnly source target) _)
  | file k op =>
      have hfiles : (w.under limits).files = w.files := rfl
      simp only [World.step, hfiles]
      cases hf : w.files[k]? with
      | none => exact .inl ⟨rfl, rfl⟩
      | some f =>
          have hmem := List.mem_of_getElem? hf
          have hst : ¬MemoryFs.straddles w.toDisk f limits.outputBytes op :=
            fun hst => hs ⟨f, hf, hst⟩
          have hunder : (w.under limits).toDisk = w.toDisk.under limits := rfl
          rw [Option.bind_some, Option.bind_some, hunder]
          rcases apply_agree (h.refused f hmem) hst with ⟨ha, ha'⟩ | ⟨g, a, ha, ha', hg⟩
          · exact .inl ⟨by rw [ha, Option.map_none], by rw [ha', Option.map_none]⟩
          · refine .inr ⟨⟨w.toDisk, w.files.set k g⟩, a, ?_, ?_, ⟨h.readOnly, ?_⟩, rfl⟩
            · rw [ha, Option.map_some]
            · rw [ha', Option.map_some]
              rfl
            · intro g' hg'
              rcases List.mem_or_eq_of_mem_set hg' with hg' | rfl
              · exact h.refused g' hg'
              · exact hg

/-- Answers tell their offsets apart. -/
theorem offset_injective {r r' : Except Errno Int}
    (h : Answer.of Value.offset r = Answer.of Value.offset r') : r = r' := by
  cases r with
  | error e =>
      cases r' with
      | error e' =>
          cases h
          rfl
      | ok t => cases h
  | ok t =>
      cases r' with
      | error e' => cases h
      | ok t' =>
          cases h
          rfl

/-- A seek to an offset that one budget admits and the other does not has two answers. -/
theorem World.Reads.differ (hs : op.straddles w limits.outputBytes) :
    ∃ w₁ w₂ a₁ a₂, w.step op = some (w₁, a₁) ∧ (w.under limits).step op = some (w₂, a₂) ∧
      a₁ ≠ a₂ := by
  cases op with
  | file k op =>
      obtain ⟨f, hf, hst⟩ := hs
      cases op with
      | seek offset whence =>
          refine ⟨_, _, _, _, by rw [World.step, hf]; rfl, by
            rw [World.step, show (w.under limits).files = w.files from rfl, hf]; rfl, ?_⟩
          exact fun heq => seek_straddles hst (offset_injective heq).symm
      | _ => cases hst
  | _ => cases hs

/-- The records are the same exactly where no seek straddles the byte budgets. -/
theorem World.Reads.record_iff (h : w.Reads) (hl : limits.pathBytes = w.fs.limits.pathBytes)
    (ops : List Op) :
    w.record ops = (w.under limits).record ops ↔ w.Clear limits.outputBytes ops := by
  induction ops generalizing w with
  | nil => exact ⟨fun _ => trivial, fun _ => rfl⟩
  | cons op ops ih =>
      by_cases hs : op.straddles w limits.outputBytes
      · obtain ⟨w₁, w₂, a₁, a₂, h₁, h₂, hne⟩ := World.Reads.differ hs
        rw [World.record, World.record, h₁, h₂]
        refine ⟨fun heq => ?_, fun hc => absurd hs hc.1⟩
        exact absurd (congrArg Prod.fst (List.cons.inj heq).1) hne
      · rw [World.Clear]
        rcases h.step hl hs with ⟨h₁, h₂⟩ | ⟨w₁, a, h₁, h₂, hr, hlim⟩
        · rw [World.record, World.record, h₁, h₂]
          exact ⟨fun _ => ⟨hs, trivial⟩, fun _ => rfl⟩
        · rw [World.record, World.record, h₁, h₂]
          have := ih hr (by rw [hlim, hl])
          constructor
          · intro heq
            exact ⟨hs, this.mp (List.cons.inj heq).2⟩
          · intro hc
            dsimp only
            rw [this.mpr hc.2]
            rfl

end

/-! ## The read-only mounts -/

/-- The read-only mounts of a compile: staged files, or the root that mirrors both. -/
inductive Input where
  | mount (files : Contents)
  | root (source included : Contents)

/-- The mount, built after the mounts it mirrors. -/
def Input.disk (host : Host) (limits : Limits) : Input → Disk
  | .mount files => newMemoryFS host files true limits
  | .root source included =>
      let src := newMemoryFS host source true limits
      let inc := newMemoryFS src.toHost included true limits
      newRootFS inc.toHost src.fs inc.fs limits

/-- The mount before its first operation. -/
def Input.world (host : Host) (limits : Limits) (input : Input) : World :=
  { toDisk := input.disk host limits, files := [] }

section

variable {d : Disk} {l l' : Limits}

/-- Staging asks no budget. -/
theorem under_stage (files : Contents) (d : Disk) (name : Name) :
    Disk.stage files (d.under l) name = (Disk.stage files d name).under l := by
  unfold Disk.stage
  have hfold : ∀ directories : List Name, ∀ d : Disk,
      directories.foldl (fun d directory =>
        if (d.lookup directory).isNone then (d.add directory (.directory 0o755) []).1 else d)
          (d.under l) =
      (directories.foldl (fun d directory =>
        if (d.lookup directory).isNone then (d.add directory (.directory 0o755) []).1 else d)
          d).under l := by
    intro directories
    induction directories with
    | nil => exact fun _ => rfl
    | cons directory directories ih =>
        intro d
        rw [List.foldl_cons, List.foldl_cons, ← ih]
        congr 1
        rw [under_lookup]
        split
        · rfl
        · rfl
  dsimp only
  rw [hfold]
  rfl

/-- The limits of a mount play no part in staging it. -/
theorem newMemoryFS_under (l l' : Limits) (host : Host) (files : Contents) (readOnly : Bool) :
    newMemoryFS host files readOnly l' = (newMemoryFS host files readOnly l).under l' := by
  have hfold : ∀ names : List Name, ∀ d : Disk,
      names.foldl (Disk.stage files) (d.under l') = (names.foldl (Disk.stage files) d).under l' := by
    intro names
    induction names with
    | nil => exact fun _ => rfl
    | cons name names ih =>
        intro d
        rw [List.foldl_cons, List.foldl_cons, under_stage, ih]
  have hstart : unstaged host l' = (unstaged host l).under l' := rfl
  rw [newMemoryFS, hstart, hfold]
  rfl

/-- The limits are those that were given. -/
theorem newMemoryFS_limits (host : Host) (files : Contents) (readOnly : Bool) (limits : Limits) :
    (newMemoryFS host files readOnly limits).fs.limits = limits :=
  congrArg (fun d : Disk => d.fs.limits) (newMemoryFS_under limits limits host files readOnly)

/-- So the two mounts of one input differ in them alone. -/
theorem disk_under (l l' : Limits) (host : Host) (input : Input) :
    input.disk host l' = (input.disk host l).under l' := by
  cases input with
  | mount files => exact newMemoryFS_under l l' host files true
  | root source included =>
      simp only [Input.disk, newRootFS]
      rw [newMemoryFS_under l l' host source, newMemoryFS_under l l' _ included,
        newMemoryFS_under l l' _ ∅]
      rfl

/-- A read-only mount gives out no writable handle. -/
theorem disk_reads (host : Host) (input : Input) :
    (input.world host l).Reads ∧ (input.world host l).fs.limits = l := by
  refine ⟨⟨?_, ?_⟩, ?_⟩
  · cases input with
    | mount files => rfl
    | root source included => rfl
  · intro f hf
    cases hf
  · exact congrArg (fun d : Disk => d.fs.limits) (disk_under l l host input)

end

/-- Two runs on a read-only mount, under limits that differ only in the output budgets,
give the same answers and handles exactly where no seek aims between the byte budgets. -/
theorem reads_agree_iff (host : Host) (input : Input) (limits : Limits) (bytes entries : Nat)
    (ops : List Op) :
    (input.world host limits).record ops =
        (input.world host { limits with outputBytes := bytes, outputEntries := entries }).record ops ↔
      (input.world host limits).Clear bytes ops := by
  obtain ⟨hr, hl⟩ := disk_reads (l := limits) host input
  have hu : input.world host { limits with outputBytes := bytes, outputEntries := entries } =
      (input.world host limits).under
        { limits with outputBytes := bytes, outputEntries := entries } := by
    rw [Input.world, disk_under limits]
    rfl
  rw [hu]
  refine hr.record_iff ?_ ops
  rw [hl]

/-- A file of three bytes, and a seek to its second one. -/
def threeBytes : Input := .mount (AList.singleton [97] [1, 2, 3])

/-- Open it, then seek to the second byte. -/
def seekOps : List Op := [.openFile [97] {} 0, .file 0 (.seek 1 0)]

/-- Without an output budget the compiler cannot seek in its inputs. -/
theorem seek_reads_output_budget : ¬∀ (host : Host) (input : Input) (limits : Limits)
    (bytes entries : Nat) (ops : List Op),
    (input.world host limits).record ops =
      (input.world host { limits with outputBytes := bytes, outputEntries := entries }).record
        ops := by
  intro h
  have := h ⟨[], 0⟩ threeBytes defaultLimits 0 0 seekOps
  exact absurd (congrArg (·.map (·.1)) this) (by decide +kernel)

end MemoryFs
