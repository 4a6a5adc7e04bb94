import CapnpcWasm.TsSdk.Trees
import Mathlib.Data.List.Induction
import Mathlib.Data.List.Perm.Subperm

/-!
# Collecting a tree

`collectFiles` reads a staged tree back.  At every moment the places it has seen, those of the
directory it reads and everything below the pending directories are the places below the root, so
every place is seen once and the walk ends with all the files.
-/

namespace TsSdk

open Sdk

/-! ## Places below a place -/

/-- The places strictly below a place. -/
def below (places : List Place) (p : Place) : List Place :=
  places.filter fun q => p <+: q ∧ p ≠ q

section

variable {fs : Filesystem} {places : List Place} {id child : Nat} {name : JsString} {p q : Place}

theorem mem_below : q ∈ below places p ↔ q ∈ places ∧ p <+: q ∧ p ≠ q := Places.mem_below

theorem Laid.closed (h : Laid fs places) : Places.Closed places := ⟨h.nodup, h.parent⟩

/-- The places of the entries of a directory. -/
def children (fs : Filesystem) (id : InodeId) (p : Place) : List Place :=
  (contentsOf fs id).map fun entry => p ++ [entry.1]

theorem Laid.mem_children (h : Laid fs places) (hid : places[id]? = some p) :
    q ∈ children fs id p ↔ ∃ name, q = p ++ [name] ∧ q ∈ places := by
  rw [children, List.mem_map]
  constructor
  · rintro ⟨⟨name, child⟩, hmem, rfl⟩
    obtain ⟨p', hp', hchild⟩ := (h.entry id name child).mp hmem
    rw [hid] at hp'
    obtain rfl := Option.some.inj hp'
    exact ⟨name, rfl, List.mem_of_getElem? hchild⟩
  · rintro ⟨name, rfl, hmem⟩
    obtain ⟨child, hchild⟩ := List.mem_iff_getElem?.mp hmem
    exact ⟨(name, child), (h.entry id name child).mpr ⟨p, hid, hchild⟩, rfl⟩

theorem Laid.nodup_children (h : Laid fs places) (id : InodeId) (p : Place) :
    (children fs id p).Nodup := by
  have hnames := h.distinct id
  have hchildren : children fs id p = ((contentsOf fs id).map Prod.fst).map fun name => p ++ [name] := by
    rw [children, List.map_map]
    rfl
  rw [hchildren]
  refine hnames.map fun a b hab => ?_
  exact (List.cons.inj (List.append_cancel_left hab)).1

/-- What is below a directory is its entries and what is below them. -/
theorem Laid.below_perm (h : Laid fs places) (hid : places[id]? = some p) :
    (below places p).Perm (children fs id p ++ (children fs id p).flatMap (below places)) := by
  have hchildren : (Places.children places p).Perm (children fs id p) := by
    refine (List.perm_ext_iff_of_nodup (h.closed.nodup_children p) (h.nodup_children id p)).mpr
      fun q => ?_
    rw [Places.mem_children, h.mem_children hid, and_comm, exists_and_right]
  exact (h.closed.below_perm p).trans (hchildren.append (hchildren.flatMap_right _))

/-- Nothing is below a file. -/
theorem Laid.below_file (h : Laid fs places) (hid : places[id]? = some p)
    (hcontents : contentsOf fs id = []) : below places p = [] := by
  have hperm := h.below_perm hid
  rw [show children fs id p = [] by rw [children, hcontents, List.map_nil]] at hperm
  exact List.perm_nil.mp hperm

end

/-! ## The walk -/

/-- The path a guest sees of a place below the root of a walk, as a directory above its entries. -/
def above (relative : Place) : JsString := relative.flatMap fun name => name ++ [slash]

theorem above_append (relative : Place) (name : JsString) :
    above (relative ++ [name]) = above relative ++ name ++ text "/" := by
  rw [above, List.flatMap_append, List.flatMap_singleton, ← List.append_assoc]
  rfl

theorem above_join (relative : Place) (name : JsString) :
    above relative ++ name = join (relative ++ [name]) := by
  induction relative with
  | nil => rw [List.nil_append, join, List.intercalate_singleton]; rfl
  | cons first relative ih =>
      rw [above, List.flatMap_cons, List.append_assoc, List.append_assoc, ← above, ih]
      rcases relative with _ | ⟨next, relative⟩
      · rfl
      · have hcons : join (first :: next :: (relative ++ [name])) =
            first ++ [slash] ++ join (next :: (relative ++ [name])) := List.intercalate_cons_cons
        rw [List.append_assoc] at hcons
        exact hcons.symm

/-- The file at a place below the root `r`, by its path. -/
def fileAt (r : Place) (done : List (Place × Bytes)) (q : Place) : Option (JsString × Bytes) :=
  (done.lookup q).map fun data => (join (q.drop r.length), data)

def totalBytes {A : Type} (files : List (A × Bytes)) : Nat := (files.map fun f => f.2.length).sum

/-- The limits let everything below the root through. -/
structure Fits (N : Type) (limits : Limits) (places : List Place) (done : List (Place × Bytes)) (r : Place) :
    Prop where
  name : ∀ q ∈ below places r, ∀ name ∈ q.getLast?, checkName (N := N) name = .ok ()
  size : ∀ q ∈ below places r,
    utf8Size (join (q.drop r.length)) limits.pathBytes ≤ limits.pathBytes
  path : ∀ q ∈ below places r, checkPath limits (join (q.drop r.length)) = .ok ()
  entries : (below places r).length ≤ limits.outputEntries
  bytes : totalBytes ((below places r).filterMap (fileAt r done)) ≤ limits.outputBytes

/-- How far a walk is: the places it has seen, those still to read of the directory it is in, and
the pending directories. -/
structure Walk (places : List Place) (done : List (Place × Bytes)) (r : Place)
    (c : Collecting) (seen todo pending : List Place) : Prop where
  perm : (seen ++ todo ++ (todo ++ pending).flatMap (below places)).Perm (below places r)
  stack : List.Forall₂ (fun entry p => places[entry.1]? = some p ∧
    ∃ relative, p = r ++ relative ∧ entry.2 = above relative) c.pending pending
  distinct : pending.Nodup
  known : ∀ p ∈ pending, p ∈ r :: seen
  visited : ∀ id ∈ c.visited, ∃ p, places[id]? = some p ∧ p ∈ r :: seen ∧ p ∉ pending
  once : c.visited.Nodup
  entries : c.entries = seen.length
  selected : c.selected = seen.filterMap (fileAt r done)
  bytes : c.bytes = totalBytes c.selected

section

variable {N : Type} {limits : Limits} {readonly : Bool} {fs : Filesystem} {places : List Place}
  {present : Place → Prop} {done : List (Place × Bytes)} {r p q : Place} {c : Collecting}
  {seen todo pending : List Place} {id : Nat}

theorem totalBytes_append {A : Type} (files files' : List (A × Bytes)) :
    totalBytes (files ++ files') = totalBytes files + totalBytes files' := by
  rw [totalBytes, List.map_append, List.sum_append]
  rfl

theorem totalBytes_perm {A : Type} {files files' : List (A × Bytes)} (h : files.Perm files') :
    totalBytes files = totalBytes files' := (h.map _).sum_nat

/-- What is seen next was not seen, is not pending and leaves room. -/
theorem Walk.next (hlaid : Laid fs places) (h : Walk places done r c seen (q :: todo) pending) :
    q ∈ below places r ∧ q ∉ r :: seen ∧ seen.length + 1 ≤ (below places r).length ∧
      totalBytes ((seen ++ [q]).filterMap (fileAt r done)) ≤
        totalBytes ((below places r).filterMap (fileAt r done)) := by
  have hmem : q ∈ below places r :=
    h.perm.subset (List.mem_append_left _ (List.mem_append_right _ List.mem_cons_self))
  have hnodup := h.perm.nodup_iff.mpr (hlaid.closed.nodup_below r)
  have hsplit : ∀ rest : List Place, seen ++ q :: todo ++ rest = seen ++ [q] ++ (todo ++ rest) := by simp
  have hperm := h.perm
  rw [hsplit] at hnodup hperm
  refine ⟨hmem, fun hseen => ?_, ?_, ?_⟩
  · rcases List.mem_cons.mp hseen with rfl | hseen
    · exact (mem_below.mp hmem).2.2 rfl
    · exact (List.nodup_append.mp (List.nodup_append.mp hnodup).1).2.2 q hseen q
        (List.mem_singleton_self q) rfl
  · have hlength := hperm.length_eq
    rw [List.length_append, List.length_append, List.length_singleton] at hlength
    omega
  · have htotal := totalBytes_perm (hperm.filterMap (fileAt r done))
    rw [List.filterMap_append, totalBytes_append] at htotal
    omega

/-- Reading an entry of the directory the walk is in. -/
theorem Walk.entry (hgrown : Grown readonly fs places present done)
    (hnodup : (done.map Prod.fst).Nodup) (hfits : Fits N limits places done r)
    {relative : Place} {entry : JsString × InodeId}
    (h : Walk places done r c seen ((r ++ relative ++ [entry.1]) :: todo) pending)
    (hentry : places[entry.2]? = some (r ++ relative ++ [entry.1])) :
    ∃ c' pending', collectEntry (N := N) limits fs (above relative) c entry = .ok c' ∧
      c'.visited = c.visited ∧
      Walk places done r c' (seen ++ [r ++ relative ++ [entry.1]]) todo pending' := by
  obtain ⟨name, id⟩ := entry
  dsimp only at h hentry ⊢
  obtain ⟨hmem, hfresh, hcount, hbytes⟩ := h.next hgrown.laid
  have hdrop : join ((r ++ relative ++ [name]).drop r.length) = above relative ++ name := by
    rw [List.append_assoc, List.drop_left, above_join]
  have hname := hfits.name _ hmem name (by simp)
  have hsize := hfits.size _ hmem
  have hpath := hfits.path _ hmem
  rw [hdrop] at hsize hpath
  have hsize' : ¬limits.pathBytes < utf8Size (above relative ++ name) limits.pathBytes := by omega
  have hentries : ¬limits.outputEntries < c.entries + 1 := by
    have := hfits.entries
    rw [h.entries]
    omega
  have hlt : id < fs.inodes.length := hgrown.laid.length ▸ (List.getElem?_eq_some_iff.mp hentry).1
  rcases hinode : fs.inodes[id]? with _ | (⟨data, ro⟩ | contents | _)
  · exact absurd (List.getElem?_eq_none_iff.mp hinode) (Nat.not_le.mpr hlt)
  · -- A file: nothing is below it.
    have hbelow : below places (r ++ relative ++ [name]) = [] :=
      hgrown.laid.below_file hentry (contentsOf_file hinode)
    obtain ⟨q, hq, hdone, -⟩ := (hgrown.file id data ro).mp hinode
    rw [hentry] at hq
    obtain rfl := Option.some.inj hq
    have hfile : fileAt r done (r ++ relative ++ [name]) = some (above relative ++ name, data) := by
      rw [fileAt, (Places.lookup_eq_some hnodup).mpr hdone, Option.map_some, hdrop]
    have hselected : (seen ++ [r ++ relative ++ [name]]).filterMap (fileAt r done) =
        c.selected ++ [(above relative ++ name, data)] := by
      rw [List.filterMap_append, h.selected, List.filterMap_cons, hfile, List.filterMap_nil]
    have htotal : totalBytes (c.selected ++ [(above relative ++ name, data)]) =
        c.bytes + data.length := by
      rw [totalBytes_append, h.bytes]
      rfl
    have hroom : ¬limits.outputBytes < c.bytes + data.length := by
      have := hfits.bytes
      rw [hselected, htotal] at hbytes
      omega
    refine ⟨{ c with
      entries := c.entries + 1, bytes := c.bytes + data.length
      selected := c.selected ++ [(above relative ++ name, data)] }, pending, ?_, rfl, ?_⟩
    · rw [collectEntry]
      dsimp only
      rw [hname, hpath, if_neg hsize', if_neg hentries, hinode]
      show (if _ then _ else _) = _
      rw [if_neg hroom]
      rfl
    · refine ⟨?_, h.stack, h.distinct, fun p hp => ?_, fun id hid => ?_, h.once, ?_,
        hselected.symm, htotal.symm⟩
      · have hperm := h.perm
        rw [List.cons_append, List.flatMap_cons, hbelow, List.nil_append] at hperm
        rwa [List.append_assoc seen, List.singleton_append]
      · rw [← List.cons_append]
        exact List.mem_append_left _ (h.known p hp)
      · obtain ⟨p, hp, hseen, hout⟩ := h.visited id hid
        exact ⟨p, hp, by rw [← List.cons_append]; exact List.mem_append_left _ hseen, hout⟩
      · rw [List.length_append, List.length_singleton, h.entries]
  · -- A directory joins the pending ones.
    have hnone : fileAt r done (r ++ relative ++ [name]) = none := by
      rw [fileAt, Option.map_eq_none_iff]
      rcases hlookup : done.lookup (r ++ relative ++ [name]) with _ | data
      · rfl
      · have hfile := (hgrown.file id data readonly).mpr
          ⟨_, hentry, (Places.lookup_eq_some hnodup).mp hlookup, rfl⟩
        rw [hinode] at hfile
        cases hfile
    have hout : r ++ relative ++ [name] ∉ pending := fun hmem => hfresh (h.known _ hmem)
    refine ⟨{ c with
      entries := c.entries + 1
      pending := (id, above relative ++ name ++ text "/") :: c.pending },
      (r ++ relative ++ [name]) :: pending, ?_, rfl, ?_⟩
    · rw [collectEntry]
      dsimp only
      rw [hname, hpath, if_neg hsize', if_neg hentries, hinode]
      rfl
    · refine ⟨?_, .cons ⟨hentry, relative ++ [name], ?_, ?_⟩ h.stack, List.nodup_cons.mpr
        ⟨hout, h.distinct⟩, fun p hp => ?_, fun id hid => ?_, h.once, ?_, ?_, h.bytes⟩
      · refine List.Perm.trans ?_ h.perm
        have hmiddle : (todo ++ (r ++ relative ++ [name]) :: pending).Perm
            ((r ++ relative ++ [name]) :: todo ++ pending) := List.perm_middle
        rw [List.append_assoc seen [_], List.singleton_append]
        exact (List.Perm.flatMap_right _ hmiddle).append_left _
      · rw [List.append_assoc]
      · exact (above_append relative name).symm
      · rcases List.mem_cons.mp hp with rfl | hp
        · exact List.mem_cons_of_mem _ (List.mem_append_right _ (List.mem_singleton_self _))
        · rw [← List.cons_append]
          exact List.mem_append_left _ (h.known p hp)
      · obtain ⟨p, hp, hseen, hnot⟩ := h.visited id hid
        refine ⟨p, hp, by rw [← List.cons_append]; exact List.mem_append_left _ hseen, ?_⟩
        rintro (_ | ⟨_, hmem⟩)
        · exact hfresh hseen
        · exact hnot hmem
      · rw [List.length_append, List.length_singleton, h.entries]
      · rw [List.filterMap_append, List.filterMap_cons, hnone, List.filterMap_nil, List.append_nil]
        exact h.selected
  · exact absurd hinode (hgrown.laid.kind id)

/-- Reading all entries of a directory. -/
theorem Walk.entries_foldlM (hgrown : Grown readonly fs places present done)
    (hnodup : (done.map Prod.fst).Nodup) (hfits : Fits N limits places done r) {relative : Place}
    {entries : List (JsString × InodeId)}
    (h : Walk places done r c seen (entries.map fun entry => r ++ relative ++ [entry.1]) pending)
    (hentries : ∀ entry ∈ entries, places[entry.2]? = some (r ++ relative ++ [entry.1])) :
    ∃ c' seen' pending',
      entries.foldlM (collectEntry (N := N) limits fs (above relative)) c = .ok c' ∧
      c'.visited = c.visited ∧ Walk places done r c' seen' [] pending' := by
  induction entries generalizing c seen pending with
  | nil => exact ⟨c, seen, pending, rfl, rfl, h⟩
  | cons entry entries ih =>
      rw [List.forall_mem_cons] at hentries
      obtain ⟨c₁, pending₁, hone, hvisited, h₁⟩ := h.entry hgrown hnodup hfits hentries.1
      obtain ⟨c', seen', pending', hrest, hvisited', h'⟩ := ih h₁ hentries.2
      refine ⟨c', seen', pending', ?_, hvisited'.trans hvisited, h'⟩
      rw [List.foldlM_cons, hone]
      exact hrest

/-- Taking the last pending directory. -/
theorem Walk.pop (hlaid : Laid fs places) {above : JsString} {stack : List (InodeId × JsString)}
    (h : Walk places done r c seen [] pending) (hstack : c.pending = (id, above) :: stack) :
    id ∉ c.visited ∧ ∃ relative pending', places[id]? = some (r ++ relative) ∧
      above = TsSdk.above relative ∧
      Walk places done r { c with pending := stack, visited := id :: c.visited } seen
        (children fs id (r ++ relative)) pending' := by
  have hforall := h.stack
  rw [hstack] at hforall
  obtain ⟨p, pending', ⟨hp, relative, rfl, habove⟩, hrest, rfl⟩ := List.forall₂_cons_left_iff.mp hforall
  obtain ⟨hout, hdistinct⟩ := List.nodup_cons.mp h.distinct
  have hid : id ∉ c.visited := fun hmem => by
    obtain ⟨p, hp', -, hnot⟩ := h.visited id hmem
    rw [hp] at hp'
    exact hnot (Option.some.inj hp' ▸ List.mem_cons_self)
  refine ⟨hid, relative, pending', hp, habove, ?_, hrest, hdistinct,
    fun p hmem => h.known p (List.mem_cons_of_mem _ hmem), fun other hother => ?_,
    List.nodup_cons.mpr ⟨hid, h.once⟩, h.entries, h.selected, h.bytes⟩
  · refine List.Perm.trans ?_ h.perm
    rw [List.append_nil, List.nil_append, List.flatMap_cons, List.flatMap_append, List.append_assoc,
      ← List.append_assoc (children fs id _)]
    exact ((hlaid.below_perm hp).symm.append_right _).append_left _
  · rcases List.mem_cons.mp hother with rfl | hother
    · exact ⟨_, hp, h.known _ List.mem_cons_self, hout⟩
    · obtain ⟨p, hp', hseen, hnot⟩ := h.visited other hother
      exact ⟨p, hp', hseen, fun hmem => hnot (List.mem_cons_of_mem _ hmem)⟩

theorem Walk.finished (h : Walk places done r c seen [] pending) (hnil : c.pending = []) :
    seen.Perm (below places r) := by
  have hstack := h.stack
  rw [hnil] at hstack
  have hperm := h.perm
  rw [List.forall₂_nil_left_iff.mp hstack, List.append_nil, List.append_nil, List.flatMap_nil,
    List.append_nil] at hperm
  exact hperm

/-- A walk that fits reads everything. -/
theorem Walk.finish (hgrown : Grown readonly fs places present done)
    (hnodup : (done.map Prod.fst).Nodup) (hfits : Fits N limits places done r)
    (h : Walk places done r c seen [] pending) {steps : Nat}
    (hsteps : fs.inodes.length < c.visited.length + steps) :
    ∃ c', ∃ seen' : List Place, collectPending (N := N) limits fs steps c = .ok c' ∧
      seen'.Perm (below places r) ∧ c'.selected = seen'.filterMap (fileAt r done) := by
  induction steps generalizing c seen pending with
  | zero =>
      -- Each inode was visited at most once.
      have hsub : c.visited ⊆ List.range fs.inodes.length := fun id hid => by
        obtain ⟨p, hp, -⟩ := h.visited id hid
        rw [List.mem_range, ← hgrown.laid.length]
        exact (List.getElem?_eq_some_iff.mp hp).1
      have hle := (List.Nodup.subperm h.once hsub).length_le
      rw [List.length_range] at hle
      omega
  | succ steps ih =>
      rcases hstack : c.pending with _ | ⟨⟨id, above⟩, stack⟩
      · refine ⟨c, seen, ?_, h.finished hstack, h.selected⟩
        rw [collectPending, hstack]
      · obtain ⟨hid, relative, pending', hp, rfl, hpop⟩ := h.pop hgrown.laid hstack
        have hentries : ∀ entry ∈ contentsOf fs id,
            places[entry.2]? = some (r ++ relative ++ [entry.1]) := fun entry hentry => by
          obtain ⟨p, hp', hchild⟩ := (hgrown.laid.entry id entry.1 entry.2).mp hentry
          rw [hp] at hp'
          rw [Option.some.inj hp']
          exact hchild
        obtain ⟨c₁, seen₁, pending₁, hone, hvisited, h₁⟩ :=
          hpop.entries_foldlM hgrown hnodup hfits hentries
        have hsteps₁ : fs.inodes.length < c₁.visited.length + steps := by
          rw [hvisited, List.length_cons]
          omega
        obtain ⟨c', seen', hrest, hperm, hselected⟩ := ih h₁ hsteps₁
        refine ⟨c', seen', ?_, hperm, hselected⟩
        rw [collectPending, hstack]
        dsimp only
        rw [if_neg hid, hone]
        exact hrest

/-- Collecting a directory of a staged tree that fits returns its files. -/
theorem collectFiles_staged (hgrown : Grown readonly fs places present done)
    (hnodup : (done.map Prod.fst).Nodup) (hfits : Fits N limits places done r) {root : Nat}
    (hroot : places[root]? = some r) :
    ∃ files, collectFiles (N := N) limits fs root = .ok files ∧
      files.Perm ((below places r).filterMap (fileAt r done)) := by
  have hstart : Walk places done r ⟨[(root, [])], [], [], 0, 0⟩ [] [] [r] := by
    refine ⟨?_, .cons ⟨hroot, [], (List.append_nil r).symm, rfl⟩ .nil, List.nodup_singleton r,
      fun p hp => ?_, fun id hid => absurd hid List.not_mem_nil, List.nodup_nil, rfl, rfl, rfl⟩
    · rw [List.append_nil, List.nil_append, List.nil_append, List.flatMap_singleton]
    · rw [List.mem_singleton.mp hp]
      exact List.mem_cons_self
  have hsteps : fs.inodes.length < ([] : List InodeId).length + (fs.inodes.length + 1) := by
    rw [List.length_nil]
    omega
  obtain ⟨c, seen, hok, hperm, hselected⟩ := hstart.finish hgrown hnodup hfits hsteps
  refine ⟨c.selected, ?_, ?_⟩
  · rw [collectFiles, hok]
    rfl
  · rw [hselected]
    exact hperm.filterMap _

end

end TsSdk
