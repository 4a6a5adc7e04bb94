import CapnpcWasm.MemoryFs.ReadOnly

/-!
# Mounts that share nodes

The compiler has three read-only mounts: its sources, the bundled includes, and the root that
holds the nodes of both once more.  One heap stands behind them, so an operation on one mount
could change what another one reads.  None does.
-/

namespace MemoryFs

open Sdk

/-- Mounts over one heap, each with the handles opened on it. -/
structure Mounts (M : Type) extends Host where
  fs : M → MemoryFS
  files : M → List MemoryFile

/-- One of the mounts with the heap, as the world an operation on it meets. -/
def Mounts.world {M : Type} (s : Mounts M) (m : M) : World :=
  { heap := s.heap, nextDevice := s.nextDevice, fs := s.fs m, files := s.files m }

/-- An operation on one of the mounts. -/
def Mounts.step {M : Type} [DecidableEq M] (s : Mounts M) (m : M) (op : Op) :
    Option (Mounts M × Answer) :=
  ((s.world m).step op).map fun r =>
    ({ heap := r.1.heap, nextDevice := r.1.nextDevice
       fs := Function.update s.fs m r.1.fs
       files := Function.update s.files m r.1.files }, r.2)

/-- A guest does an operation on one of the mounts and gets the answer. -/
def DoesOn {M : Type} [DecidableEq M] (s : Mounts M) (event : M × Event) (s' : Mounts M) : Prop :=
  s.step event.1 event.2.1 = some (s', event.2.2)

/-- The mounts as they were before: the names, what stands at each of them, and the charges. -/
structure Unchanged {M : Type} (s s' : Mounts M) (m : M) : Prop where
  nodes : (s'.fs m).nodes = (s.fs m).nodes
  contents : ∀ n, (s'.world m).deref n = (s.world m).deref n
  used : (s'.fs m).used = (s.fs m).used
  created : (s'.fs m).created = (s.fs m).created
  limit : (s'.fs m).limit = none

/-- Every mount is read-only, and no handle on it may write. -/
def Mounts.Reads {M : Type} (s : Mounts M) : Prop := ∀ m, (s.world m).Reads

section

variable {M : Type} [DecidableEq M] {s s' : Mounts M} {event : M × Event} {m : M}
  {w w' : World} {op : Op} {a : Answer}

/-- No seek aims between a budget and itself. -/
theorem not_straddles_self : ¬op.straddles w w.fs.limits.outputBytes := by
  intro hstraddles
  cases op with
  | file h op =>
      obtain ⟨f, -, hf⟩ := hstraddles
      cases op with
      | seek offset whence =>
          obtain ⟨-, -, t, -, -, hne⟩ := hf
          exact hne Iff.rfl
      | _ => cases hf
  | _ => cases hstraddles

/-- A step on a read-only mount leaves the disk, and no handle may write after it. -/
theorem World.Reads.kept (h : w.Reads) (hs : w.step op = some (w', a)) :
    w'.toDisk = w.toDisk ∧ w'.Reads := by
  have hself : w.under w.fs.limits = w := rfl
  rcases h.step rfl not_straddles_self with ⟨hnone, -⟩ | ⟨w₁, a₁, hsome, -, hreads, hdisk⟩
  · rw [hnone] at hs
    cases hs
  · rw [hsome] at hs
    cases hs
    exact ⟨hdisk, hreads⟩

/-- A step on one of several read-only mounts changes nothing but its handles. -/
theorem Mounts.Reads.step (h : s.Reads) (hs : DoesOn s event s') :
    s'.heap = s.heap ∧ s'.fs = s.fs ∧ s'.Reads := by
  obtain ⟨m, op, a⟩ := event
  obtain ⟨⟨w, b⟩, hw, heq⟩ := Option.map_eq_some_iff.mp hs
  obtain ⟨rfl, rfl⟩ := Prod.mk.inj heq
  obtain ⟨hdisk, hreads⟩ := (h m).kept hw
  have hheap : w.heap = s.heap := congrArg (fun d : Disk => d.heap) hdisk
  have hfs : Function.update s.fs m w.fs = s.fs := by
    rw [show w.fs = s.fs m from congrArg (fun d : Disk => d.fs) hdisk]
    exact Function.update_eq_self m s.fs
  refine ⟨hheap, hfs, fun m' => ⟨?_, fun f hf => ?_⟩⟩
  · show (Function.update s.fs m w.fs m').readOnly = true
    rw [hfs]
    exact (h m').readOnly
  · have hf : f ∈ Function.update s.files m w.files m' := hf
    rw [Function.update_apply] at hf
    split at hf
    · exact hreads.refused f hf
    · exact (h m').refused f hf

/-- A run on read-only mounts changes nothing but their handles. -/
theorem Mounts.Reads.runs {events : List (M × Event)} (h : s.Reads)
    (hr : Trace DoesOn s events s') : s'.heap = s.heap ∧ s'.fs = s.fs ∧ s'.Reads := by
  induction hr with
  | nil => exact ⟨rfl, rfl, h⟩
  | snoc _ hstep ih =>
      obtain ⟨hheap, hfs, hreads⟩ := ih
      obtain ⟨hheap', hfs', hreads'⟩ := hreads.step hstep
      exact ⟨hheap'.trans hheap, hfs'.trans hfs, hreads'⟩

end

/-! ## The mounts of a compile -/

inductive Mount where
  | source
  | included
  | root
deriving DecidableEq, Repr

/-- The three read-only mounts, one built after the other. -/
def compileMounts (host : Host) (source included : Contents) (limits : Limits) : Mounts Mount :=
  let src := newMemoryFS host source true limits
  let inc := newMemoryFS src.toHost included true limits
  let root := newRootFS inc.toHost src.fs inc.fs limits
  { toHost := root.toHost
    fs := fun
      | .source => src.fs
      | .included => inc.fs
      | .root => root.fs
    files := fun _ => [] }

theorem stage_limit (files : Contents) (d : Disk) (name : Name) :
    (Disk.stage files d name).fs.limit = d.fs.limit := by
  have hfold : ∀ (directories : List Name) (d : Disk),
      (directories.foldl (fun d directory =>
        if (d.lookup directory).isNone then (d.add directory (.directory 0o755) []).1 else d)
          d).fs.limit = d.fs.limit := by
    intro directories
    induction directories with
    | nil => exact fun _ => rfl
    | cons directory directories ih =>
        intro d
        rw [List.foldl_cons, ih]
        split
        · rfl
        · rfl
  exact hfold (ancestors name) d

/-- Staging exceeds no budget. -/
theorem newMemoryFS_limit (host : Host) (files : Contents) (readOnly : Bool) (limits : Limits) :
    (newMemoryFS host files readOnly limits).fs.limit = none := by
  have hfold : ∀ (names : List Name) (d : Disk),
      (names.foldl (Disk.stage files) d).fs.limit = d.fs.limit := by
    intro names
    induction names with
    | nil => exact fun _ => rfl
    | cons name names ih =>
        intro d
        rw [List.foldl_cons, ih, stage_limit]
  exact hfold (sortedKeys files) (unstaged host limits)

theorem compileMounts_reads (host : Host) (source included : Contents) (limits : Limits) :
    (compileMounts host source included limits).Reads ∧
      ∀ m, ((compileMounts host source included limits).fs m).limit = none := by
  refine ⟨fun m => ⟨?_, fun f hf => absurd hf List.not_mem_nil⟩, fun m => ?_⟩
  · cases m with
    | source => rfl
    | included => rfl
    | root => rfl
  · cases m with
    | source => exact newMemoryFS_limit host source true limits
    | included => exact newMemoryFS_limit _ included true limits
    | root =>
        let src := newMemoryFS host source true limits
        exact newMemoryFS_limit (newMemoryFS src.toHost included true limits).toHost ∅ true limits

/-- No sequence of operations on the three mounts of a compile, nor on handles opened from any
of them, changes a name, a node or a charge of any of them. -/
theorem compile_mounts_unchanged (host : Host) (source included : Contents) (limits : Limits)
    (events : List (Mount × Event)) (s : Mounts Mount)
    (h : Trace DoesOn (compileMounts host source included limits) events s) (m : Mount) :
    Unchanged (compileMounts host source included limits) s m := by
  obtain ⟨hreads, hlimit⟩ := compileMounts_reads host source included limits
  obtain ⟨hheap, hfs, -⟩ := hreads.runs h
  have hm := congrFun hfs m
  refine ⟨by rw [hm], fun n => ?_, by rw [hm], by rw [hm], by rw [hm, hlimit]⟩
  show s.heap.getD n default = (compileMounts host source included limits).heap.getD n default
  rw [hheap]

/-- A source file is opened through the root and written to. -/
theorem compile_mounts_unchanged_sample : ∃ s, Trace DoesOn
    (compileMounts ⟨[], 0⟩ (AList.singleton [97] [1, 2, 3]) ∅ defaultLimits)
    [(.root, .openFile (slash :: sourceMount ++ [slash, 97]) {} 0, .ok (.handle 0)),
      (.root, .file 0 (.write [9]), .error .EBADF)] s ∧
    ∀ m, Unchanged (compileMounts ⟨[], 0⟩ (AList.singleton [97] [1, 2, 3]) ∅ defaultLimits) s m := by
  have hanswers : ((compileMounts ⟨[], 0⟩ (AList.singleton [97] [1, 2, 3]) ∅ defaultLimits).step
      .root (.openFile (slash :: sourceMount ++ [slash, 97]) {} 0)).bind (fun r =>
        (r.1.step .root (.file 0 (.write [9]))).map fun r' => (r.2, r'.2)) =
      some (.ok (.handle 0), .error .EBADF) := by decide +kernel
  obtain ⟨⟨s₁, a₁⟩, hopen, hrest⟩ := Option.bind_eq_some_iff.mp hanswers
  obtain ⟨⟨s₂, a₂⟩, hwrite, heq⟩ := Option.map_eq_some_iff.mp hrest
  obtain ⟨rfl, rfl⟩ := Prod.mk.inj heq
  have hopen : DoesOn _ (Mount.root, _, .ok (.handle 0)) s₁ := hopen
  have hwrite : DoesOn s₁ (Mount.root, _, .error .EBADF) s₂ := hwrite
  have hrun := Trace.snoc (.snoc .nil hopen) hwrite
  exact ⟨s₂, hrun, compile_mounts_unchanged _ _ _ _ _ s₂ hrun⟩

end MemoryFs
