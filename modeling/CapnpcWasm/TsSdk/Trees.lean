import CapnpcWasm.Lib.Places
import CapnpcWasm.TsSdk.Staging

/-!
# Staged trees

The place of an inode is the list of names that leads to it from the root.  Staging adds
inodes at new places only, so every place has one inode and a directory's entries are the places
below it.
-/

namespace TsSdk

open Sdk

abbrev Place := List JsString

/-- The places of the inodes of a tree. -/
structure Laid (fs : Filesystem) (places : List Place) : Prop where
  length : places.length = fs.inodes.length
  nodup : places.Nodup
  root : places[0]? = some []
  entry : ∀ id name child, (name, child) ∈ contentsOf fs id ↔
    ∃ p, places[id]? = some p ∧ places[child]? = some (p ++ [name])
  distinct : ∀ id, ((contentsOf fs id).map Prod.fst).Nodup
  parent : ∀ p name, p ++ [name] ∈ places → p ∈ places
  kind : ∀ id : InodeId, fs.inodes[id]? ≠ some .other

/-- The inode is a directory. -/
def Filesystem.IsDirectory (fs : Filesystem) (id : InodeId) : Prop :=
  ∃ contents, fs.inodes[id]? = some (.directory contents)

section

variable {fs : Filesystem} {places : List Place} {directory id child : Nat} {name : JsString}
  {inode : Inode} {p : Place}

theorem contentsOf_file {data : Bytes} {readonly : Bool}
    (h : fs.inodes[id]? = some (.file data readonly)) : contentsOf fs id = [] := by
  rw [contentsOf, h]

/-- Two places at one index, or one place at two. -/
theorem Laid.index_inj (h : Laid fs places) (hid : places[id]? = some p)
    (hchild : places[child]? = some p) : id = child := by
  obtain ⟨hlt, hid⟩ := List.getElem?_eq_some_iff.mp hid
  obtain ⟨hlt', hchild⟩ := List.getElem?_eq_some_iff.mp hchild
  exact (List.Nodup.getElem_inj_iff h.nodup).mp (hid.trans hchild.symm)

theorem Laid.lookup (h : Laid fs places) (hid : places[id]? = some p) :
    (contentsOf fs id).lookup name = some child ↔ places[child]? = some (p ++ [name]) := by
  rw [Places.lookup_eq_some (h.distinct id), h.entry id name child]
  constructor
  · rintro ⟨q, hq, hchild⟩
    rw [hid] at hq
    obtain rfl := Option.some.inj hq
    exact hchild
  · exact fun hchild => ⟨p, hid, hchild⟩

theorem setEntry_new {contents : List (JsString × InodeId)} (h : ∀ id, (name, id) ∉ contents) :
    setEntry contents name id = contents ++ [(name, id)] := by
  rw [setEntry, if_neg]
  rw [List.any_eq_true]
  rintro ⟨entry, hmem, heq⟩
  exact h entry.2 (by rw [← beq_iff_eq.mp heq]; exact hmem)

theorem create_inodes (hdirectory : fs.IsDirectory directory) (id : Nat) :
    (fs.create directory name inode).inodes[id]? =
      if id = fs.inodes.length then some inode
      else if id = directory then
        some (.directory (setEntry (contentsOf fs directory) name fs.inodes.length))
      else fs.inodes[id]? := by
  obtain ⟨contents, hcontents⟩ := hdirectory
  obtain ⟨hlt, -⟩ := List.getElem?_eq_some_iff.mp hcontents
  rw [Filesystem.create, List.getElem?_append, List.length_set]
  by_cases hid : id < fs.inodes.length
  · rw [if_pos hid, if_neg (Nat.ne_of_lt hid), List.getElem?_set]
    by_cases heq : id = directory
    · rw [if_pos heq.symm, if_pos hlt, if_pos heq]
      rfl
    · rw [if_neg fun h => heq h.symm, if_neg heq]
  · rw [if_neg hid]
    by_cases heq : id = fs.inodes.length
    · rw [if_pos heq, heq, Nat.sub_self]
      rfl
    · have hnone : ∀ l : List Inode, l.length ≤ id → l[id]? = none := fun l h =>
        List.getElem?_eq_none h
      have hne : id ≠ directory := fun h => hid (by rw [h]; exact hlt)
      rw [if_neg heq, if_neg hne, hnone _ (Nat.le_of_not_lt hid)]
      have hlast : [inode].length ≤ id - fs.inodes.length := by
        rw [List.length_singleton]
        omega
      exact List.getElem?_eq_none hlast

theorem create_contentsOf (hdirectory : fs.IsDirectory directory) (id : Nat) :
    contentsOf (fs.create directory name inode) id =
      if id = fs.inodes.length then contentsOf ⟨[inode]⟩ 0
      else if id = directory then setEntry (contentsOf fs directory) name fs.inodes.length
      else contentsOf fs id := by
  rw [contentsOf, create_inodes hdirectory]
  by_cases hid : id = fs.inodes.length
  · rw [if_pos hid, if_pos hid]
    rfl
  · rw [if_neg hid, if_neg hid]
    by_cases heq : id = directory
    · rw [if_pos heq, if_pos heq]
    · rw [if_neg heq, if_neg heq]
      rfl

/-- An inode at a new place below a directory. -/
theorem Laid.create (h : Laid fs places) (hp : places[directory]? = some p)
    (hdirectory : fs.IsDirectory directory) (hnew : p ++ [name] ∉ places)
    (hinode : contentsOf ⟨[inode]⟩ 0 = []) (hkind : inode ≠ .other) :
    Laid (fs.create directory name inode) (places ++ [p ++ [name]]) := by
  have hlt : directory < places.length := (List.getElem?_eq_some_iff.mp hp).1
  have hfresh : ∀ id, (name, id) ∉ contentsOf fs directory := fun id hmem => by
    obtain ⟨q, hq, hid⟩ := (h.entry directory name id).mp hmem
    rw [hp] at hq
    rw [← Option.some.inj hq] at hid
    exact hnew (List.mem_of_getElem? hid)
  have hplace : ∀ id q, (places ++ [p ++ [name]])[id]? = some q ↔
      places[id]? = some q ∨ id = places.length ∧ q = p ++ [name] := by
    intro id q
    rw [List.getElem?_append]
    split
    · next hid =>
      refine ⟨.inl, fun hq => hq.resolve_right fun heq => absurd heq.1 (by omega)⟩
    · next hid =>
      have hnone : places[id]? = none := List.getElem?_eq_none (by omega)
      rw [hnone, List.getElem?_singleton]
      constructor
      · intro hq
        split at hq
        · exact .inr ⟨by omega, (Option.some.inj hq).symm⟩
        · cases hq
      · rintro (hq | ⟨heq, rfl⟩)
        · cases hq
        · rw [if_pos (by omega)]
  have hcontents : setEntry (contentsOf fs directory) name fs.inodes.length =
      contentsOf fs directory ++ [(name, fs.inodes.length)] := setEntry_new hfresh
  refine ⟨?_, ?_, ?_, fun id name' child => ?_, fun id => ?_, fun q name' hmem => ?_, fun id => ?_⟩
  · simp [Filesystem.create, h.length]
  · exact List.nodup_append.mpr ⟨h.nodup, List.nodup_singleton _, fun a ha b hb hab => by
      rw [List.mem_singleton] at hb
      exact hnew (hb ▸ hab ▸ ha)⟩
  · exact (hplace 0 []).mpr (.inl h.root)
  · rw [create_contentsOf hdirectory, hcontents]
    have hold := h.entry id name' child
    constructor
    · intro hmem
      split at hmem
      · rw [hinode] at hmem
        cases hmem
      · split at hmem
        · next heq =>
          subst heq
          rcases List.mem_append.mp hmem with hmem | hmem
          · obtain ⟨q, hq, hchild⟩ := hold.mp hmem
            exact ⟨q, (hplace _ _).mpr (.inl hq), (hplace _ _).mpr (.inl hchild)⟩
          · obtain ⟨rfl, rfl⟩ := Prod.mk.inj (List.mem_singleton.mp hmem)
            exact ⟨p, (hplace _ _).mpr (.inl hp), (hplace _ _).mpr (.inr ⟨h.length.symm, rfl⟩)⟩
        · obtain ⟨q, hq, hchild⟩ := hold.mp hmem
          exact ⟨q, (hplace _ _).mpr (.inl hq), (hplace _ _).mpr (.inl hchild)⟩
    · rintro ⟨q, hq, hchild⟩
      rcases (hplace id q).mp hq with hold' | ⟨-, rfl⟩
      · have hid : id < places.length := (List.getElem?_eq_some_iff.mp hold').1
        rw [if_neg (Nat.ne_of_lt (h.length ▸ hid))]
        rcases (hplace child _).mp hchild with hchild' | ⟨rfl, heq⟩
        · have hmem := hold.mpr ⟨q, hold', hchild'⟩
          split
          · next heq =>
            subst heq
            exact List.mem_append_left _ hmem
          · exact hmem
        · obtain ⟨hplaces, hnames⟩ := List.append_inj' heq rfl
          rw [hplaces] at hold'
          rw [if_pos (h.index_inj hold' hp), h.length, (List.cons.inj hnames).1]
          exact List.mem_append_right _ (List.mem_singleton_self _)
      · -- Nothing is below the new inode.
        exfalso
        rcases (hplace child _).mp hchild with hchild' | ⟨-, heq⟩
        · exact hnew (h.parent _ name' (List.mem_of_getElem? hchild'))
        · have hlength := congrArg List.length heq
          simp at hlength
  · rw [create_contentsOf hdirectory, hcontents]
    split
    · rw [hinode]
      exact List.nodup_nil
    · split
      · rw [List.map_append, List.map_singleton]
        refine List.nodup_append.mpr ⟨h.distinct directory, List.nodup_singleton _,
          fun a ha b hb hab => ?_⟩
        obtain ⟨entry, hmem, rfl⟩ := List.mem_map.mp ha
        rw [List.mem_singleton] at hb
        have hname : entry.1 = name := hab.trans hb
        exact hfresh entry.2 (by rw [← hname]; exact hmem)
      · exact h.distinct id
  · rcases List.mem_append.mp hmem with hmem | hmem
    · exact List.mem_append_left _ (h.parent q name' hmem)
    · obtain ⟨rfl, -⟩ := List.append_inj' (List.mem_singleton.mp hmem) rfl
      exact List.mem_append_left _ (List.mem_of_getElem? hp)
  · rw [create_inodes hdirectory]
    split
    · exact fun heq => hkind (Option.some.inj heq)
    · split
      · exact fun heq => by cases heq
      · exact h.kind id

end

/-! ## Staging -/

/-- What an inode adds to the staged files. -/
def Inode.stagedAt (p : Place) : Inode → List (Place × Bytes)
  | .file data _ => [(p, data)]
  | _ => []

/-- A tree with inodes at the places there should be, and the files staged so far. -/
structure Grown (readonly : Bool) (fs : Filesystem) (places : List Place) (present : Place → Prop)
    (done : List (Place × Bytes)) : Prop where
  laid : Laid fs places
  place : ∀ p, p ∈ places ↔ present p
  file : ∀ (id : Nat) data ro, fs.inodes[id]? = some (.file data ro) ↔
    ∃ p, places[id]? = some p ∧ (p, data) ∈ done ∧ ro = readonly

section

variable {N : Type} {readonly : Bool} {fs : Filesystem} {places : List Place} {present : Place → Prop}
  {done : List (Place × Bytes)} {directory : Nat} {part path : JsString} {p : Place}

theorem Grown.congr {present' : Place → Prop} (h : Grown readonly fs places present done)
    (hiff : ∀ p, present p ↔ present' p) : Grown readonly fs places present' done :=
  ⟨h.laid, fun p => (h.place p).trans (hiff p), h.file⟩

/-- Files and directories at the places there were are where they were. -/
theorem Grown.create (h : Grown readonly fs places present done)
    (hp : places[directory]? = some p) (hdirectory : fs.IsDirectory directory)
    (hnew : ¬present (p ++ [part])) (hdone : ∀ q data, (q, data) ∈ done → present q) {inode : Inode}
    (hinode : inode = .directory [] ∨ ∃ data, inode = .file data readonly) :
    Grown readonly (fs.create directory part inode) (places ++ [p ++ [part]])
      (fun q => present q ∨ q = p ++ [part])
      (done ++ inode.stagedAt (p ++ [part])) := by
  have hplaces : p ++ [part] ∉ places := fun hmem => hnew ((h.place _).mp hmem)
  have hlaid : Laid (fs.create directory part inode) (places ++ [p ++ [part]]) := by
    refine h.laid.create hp hdirectory hplaces ?_ ?_
    · rcases hinode with rfl | ⟨data, rfl⟩
      · rfl
      · rfl
    · rcases hinode with rfl | ⟨data, rfl⟩
      · nofun
      · nofun
  refine ⟨hlaid, fun q => ?_, fun id data ro => ?_⟩
  · rw [List.mem_append, h.place, List.mem_singleton]
  · have hlength := h.laid.length
    obtain ⟨contents, hcontents⟩ := hdirectory
    have hold := h.file id data ro
    rw [create_inodes ⟨contents, hcontents⟩]
    by_cases hid : id = fs.inodes.length
    · -- The new inode.
      have hnewPlace : (places ++ [p ++ [part]])[id]? = some (p ++ [part]) := by
        rw [hid, ← hlength]
        exact List.getElem?_concat_length
      rw [if_pos hid, hnewPlace]
      constructor
      · intro hfile
        rcases hinode with rfl | ⟨data', rfl⟩
        · cases hfile
        · cases hfile
          exact ⟨_, rfl, List.mem_append_right _ (List.mem_singleton_self _), rfl⟩
      · rintro ⟨q, hq, hmem, rfl⟩
        obtain rfl := Option.some.inj hq
        rcases List.mem_append.mp hmem with hmem | hmem
        · exact absurd (hdone _ data hmem) hnew
        · rcases hinode with rfl | ⟨data', rfl⟩
          · cases hmem
          · obtain ⟨-, rfl⟩ := Prod.mk.inj (List.mem_singleton.mp hmem)
            rfl
    · have hplace : (places ++ [p ++ [part]])[id]? = places[id]? := by
        by_cases hlt : id < places.length
        · exact List.getElem?_append_left hlt
        · have hnone : ∀ l : List Place, l.length ≤ id → l[id]? = none := fun l h =>
            List.getElem?_eq_none h
          rw [hnone _ (by rw [List.length_append, List.length_singleton]; omega),
            hnone _ (Nat.le_of_not_lt hlt)]
      have hnewDone : ∀ q, places[id]? = some q → ((q, data) ∈ done ++ inode.stagedAt (p ++ [part]) ↔ (q, data) ∈ done) := by
        intro q hq
        rw [List.mem_append]
        refine ⟨fun hmem => hmem.resolve_right fun hmem => ?_, .inl⟩
        rcases hinode with rfl | ⟨data', rfl⟩
        · cases hmem
        · obtain ⟨rfl, -⟩ := Prod.mk.inj (List.mem_singleton.mp hmem)
          exact hplaces (List.mem_of_getElem? hq)
      rw [if_neg hid, hplace]
      have hsame : (∃ q, places[id]? = some q ∧ (q, data) ∈ done ++ inode.stagedAt (p ++ [part]) ∧ ro = readonly) ↔
          ∃ q, places[id]? = some q ∧ (q, data) ∈ done ∧ ro = readonly :=
        ⟨fun ⟨q, hq, hmem, hro⟩ => ⟨q, hq, (hnewDone q hq).mp hmem, hro⟩,
          fun ⟨q, hq, hmem, hro⟩ => ⟨q, hq, (hnewDone q hq).mpr hmem, hro⟩⟩
      rw [hsame, ← hold]
      by_cases heq : id = directory
      · rw [if_pos heq, heq, hcontents]
        exact iff_of_false nofun nofun
      · rw [if_neg heq]

/-- A directory on the way to a file that no staged file stands in. -/
theorem Grown.stageDirectory (h : Grown readonly fs places present done)
    (hdone : ∀ q data, (q, data) ∈ done → present q) (hp : places[directory]? = some p)
    (hdirectory : fs.IsDirectory directory) (hfree : ∀ data, (p ++ [part], data) ∉ done)
    (path : JsString) : ∃ fs' id places',
      stageDirectory (N := N) path (fs, directory) part = .ok (fs', id) ∧
      Grown readonly fs' places' (fun q => present q ∨ q = p ++ [part]) done ∧
      places'[id]? = some (p ++ [part]) ∧ fs'.IsDirectory id := by
  rw [TsSdk.stageDirectory]
  dsimp only [Filesystem.contents]
  rcases hlookup : (contentsOf fs directory).lookup part with _ | id
  · have hnew : ¬present (p ++ [part]) := by
      intro hpresent
      obtain ⟨child, hchild⟩ := List.mem_iff_getElem?.mp ((h.place _).mpr hpresent)
      rw [(h.laid.lookup hp).mpr hchild] at hlookup
      cases hlookup
    have hgrown := h.create hp hdirectory hnew hdone (.inl rfl)
    rw [show Inode.stagedAt (p ++ [part]) (.directory []) = [] from rfl, List.append_nil] at hgrown
    refine ⟨_, _, _, rfl, hgrown, ?_, [], ?_⟩
    · rw [← h.laid.length]
      exact List.getElem?_concat_length
    · rw [create_inodes hdirectory, if_pos rfl]
  · have hplace := (h.laid.lookup hp).mp hlookup
    have hpresent : present (p ++ [part]) := (h.place _).mp (List.mem_of_getElem? hplace)
    have hlt : id < fs.inodes.length := h.laid.length ▸ (List.getElem?_eq_some_iff.mp hplace).1
    have hgrown : Grown readonly fs places (fun q => present q ∨ q = p ++ [part]) done :=
      h.congr fun q => ⟨.inl, fun hq => hq.elim (fun hq => hq) fun heq => heq ▸ hpresent⟩
    rcases hinode : fs.inodes[id]? with _ | (⟨data, ro⟩ | contents | _)
    · exact absurd (List.getElem?_eq_none_iff.mp hinode) (Nat.not_le.mpr hlt)
    · obtain ⟨q, hq, hmem, -⟩ := (h.file id data ro).mp hinode
      rw [hplace] at hq
      obtain rfl := Option.some.inj hq
      exact absurd hmem (hfree data)
    · exact ⟨fs, id, places, by dsimp only; rw [hinode], hgrown, hplace, contents, hinode⟩
    · exact absurd hinode (h.laid.kind id)

/-- The directories on the way to a file. -/
theorem Grown.stageDirectories {parts : Place} (h : Grown readonly fs places present done)
    (hdone : ∀ q data, (q, data) ∈ done → present q) (hp : places[directory]? = some p)
    (hdirectory : fs.IsDirectory directory)
    (hfree : ∀ rest ≠ [], rest <+: parts → ∀ data, (p ++ rest, data) ∉ done) (path : JsString) :
    ∃ fs' id places',
      parts.foldlM (TsSdk.stageDirectory (N := N) path) (fs, directory) = .ok (fs', id) ∧
      Grown readonly fs' places'
        (fun q => present q ∨ ∃ rest ≠ [], rest <+: parts ∧ q = p ++ rest) done ∧
      places'[id]? = some (p ++ parts) ∧ fs'.IsDirectory id := by
  induction parts generalizing fs places present directory p with
  | nil =>
      refine ⟨fs, directory, places, rfl, h.congr fun q => ⟨.inl, ?_⟩, by rwa [List.append_nil],
        hdirectory⟩
      rintro (hq | ⟨rest, hne, hrest, -⟩)
      · exact hq
      · exact absurd (List.prefix_nil.mp hrest) hne
  | cons part parts ih =>
      have hfirst : ∀ data, (p ++ [part], data) ∉ done :=
        hfree [part] (List.cons_ne_nil _ _) (List.prefix_append [part] parts)
      obtain ⟨fs₁, id₁, places₁, hstage, hgrown, hplace, hdirectory₁⟩ :=
        h.stageDirectory (N := N) hdone hp hdirectory hfirst path
      have hassoc : ∀ rest : Place, p ++ [part] ++ rest = p ++ part :: rest := fun rest => by simp
      obtain ⟨fs', id', places', hrest, hgrown', hplace', hdirectory'⟩ :=
        ih hgrown (fun q data hmem => .inl (hdone q data hmem)) hplace hdirectory₁
          fun rest hne hpre data => by
            rw [hassoc]
            exact hfree (part :: rest) (List.cons_ne_nil _ _)
              (List.cons_prefix_cons.mpr ⟨rfl, hpre⟩) data
      refine ⟨fs', id', places', ?_, hgrown'.congr fun q => ?_, ?_, hdirectory'⟩
      · rw [List.foldlM_cons, hstage]
        exact hrest
      · constructor
        · rintro ((hq | rfl) | ⟨rest, hne, hpre, rfl⟩)
          · exact .inl hq
          · exact .inr ⟨[part], List.cons_ne_nil _ _, List.prefix_append [part] parts, rfl⟩
          · exact .inr ⟨part :: rest, List.cons_ne_nil _ _,
              List.cons_prefix_cons.mpr ⟨rfl, hpre⟩, hassoc rest⟩
        · rintro (hq | ⟨rest, hne, hpre, rfl⟩)
          · exact .inl (.inl hq)
          · obtain ⟨first, rest, rfl⟩ := List.exists_cons_of_ne_nil hne
            obtain ⟨rfl, hbelow⟩ := List.cons_prefix_cons.mp hpre
            by_cases hnil : rest = []
            · exact .inl (.inr (by rw [hnil]))
            · exact .inr ⟨rest, hnil, hbelow, (hassoc rest).symm⟩
      · rw [hplace', hassoc]

theorem split_ne_nil (path : JsString) : split path ≠ [] := List.splitOn_ne_nil slash path

/-- One more file, whose place is free and has no file on the way. -/
theorem Grown.stageFile (h : Grown readonly fs places present done)
    (hdone : ∀ q data, (q, data) ∈ done → present q) (hroot : fs.IsDirectory 0) {file : JsString × Bytes}
    (hnames : ∀ part ∈ split file.1, checkName (N := N) part = .ok ())
    (hfree : ∀ q data, (q, data) ∈ done → ¬q <+: split file.1) (hnew : ¬present (split file.1)) :
    ∃ fs' places', stageFile (N := N) readonly fs file = .ok fs' ∧
      Grown readonly fs' places' (fun q => present q ∨ q <+: split file.1)
        (done ++ [(split file.1, file.2)]) := by
  have hchecks : (split file.1).forM (checkName (N := N)) = .ok () := by
    generalize split file.1 = parts at hnames
    induction parts with
    | nil => rfl
    | cons part parts ih =>
        obtain ⟨hpart, hparts⟩ := List.forall_mem_cons.mp hnames
        show (checkName part >>= fun _ => parts.forM (checkName (N := N))) = _
        rw [hpart]
        exact ih hparts
  have hsplit : (split file.1).dropLast ++ [(split file.1).getLastD []] = split file.1 := by
    have hlast := List.dropLast_append_getLast (split_ne_nil file.1)
    rwa [List.getLastD_eq_getLast?, List.getLast?_eq_getLast_of_ne_nil (split_ne_nil file.1),
      Option.getD_some]
  rw [TsSdk.stageFile]
  dsimp only [Filesystem.contents]
  rw [hchecks]
  generalize (split file.1).dropLast = parts at hsplit
  generalize (split file.1).getLastD [] = name at hsplit
  rw [← hsplit] at hfree hnew
  have hways : ∀ rest ≠ [], rest <+: parts → ∀ data, ([] ++ rest, data) ∉ done :=
    fun rest _ hpre data hmem => hfree rest data hmem (hpre.trans (List.prefix_append _ _))
  obtain ⟨fs', id, places', hstage, hgrown, hplace, hdirectory⟩ :=
    h.stageDirectories (N := N) hdone h.laid.root hroot hways file.1
  rw [List.nil_append] at hplace
  have hnew' : ¬(present (parts ++ [name]) ∨
      ∃ rest ≠ [], rest <+: parts ∧ parts ++ [name] = [] ++ rest) := by
    rintro (hpresent | ⟨rest, -, hpre, heq⟩)
    · exact hnew hpresent
    · have hlength := hpre.length_le
      rw [List.nil_append] at heq
      rw [← heq, List.length_append, List.length_singleton] at hlength
      omega
  have hlookup : (contentsOf fs' id).lookup name = none := by
    rcases hlookup : (contentsOf fs' id).lookup name with _ | child
    · rfl
    · have hchild := (hgrown.laid.lookup hplace).mp hlookup
      exact absurd ((hgrown.place _).mp (List.mem_of_getElem? hchild)) hnew'
  have hinode : Inode.file file.2 readonly = .directory [] ∨
      ∃ data, Inode.file file.2 readonly = .file data readonly := .inr ⟨file.2, rfl⟩
  have hcreated := hgrown.create hplace hdirectory hnew'
    (fun q data hmem => .inl (hdone q data hmem)) hinode
  refine ⟨fs'.create id name (.file file.2 readonly), places' ++ [parts ++ [name]], ?_, ?_⟩
  · show (parts.foldlM (TsSdk.stageDirectory file.1) (fs, 0) >>= fun place =>
      if ((contentsOf place.1 place.2).lookup name).isSome then _ else _) = _
    rw [hstage]
    show (if ((contentsOf fs' id).lookup name).isSome then _ else _) = _
    rw [hlookup]
    rfl
  · rw [← hsplit]
    refine hcreated.congr fun q => ?_
    constructor
    · rintro ((hq | ⟨rest, -, hpre, rfl⟩) | rfl)
      · exact .inl hq
      · exact .inr (hpre.trans (List.prefix_append _ _))
      · exact .inr (List.prefix_refl _)
    · rintro (hq | hpre)
      · exact .inl (.inl hq)
      · rcases List.prefix_concat_iff.mp hpre with rfl | hpre
        · exact .inr rfl
        · by_cases hnil : q = []
          · refine .inl (.inl ?_)
            rw [hnil]
            exact (h.place []).mp (List.mem_of_getElem? h.laid.root)
          · exact .inl (.inr ⟨q, hnil, hpre, rfl⟩)

/-- The root stays a directory. -/
theorem Grown.isDirectory_root (h : Grown readonly fs places present done) (hne : ∀ data, ([], data) ∉ done) :
    fs.IsDirectory 0 := by
  have hlt : 0 < fs.inodes.length := h.laid.length ▸ (List.getElem?_eq_some_iff.mp h.laid.root).1
  rcases hinode : fs.inodes[0]? with _ | (⟨data, ro⟩ | contents | _)
  · exact absurd (List.getElem?_eq_none_iff.mp hinode) (Nat.not_le.mpr hlt)
  · obtain ⟨q, hq, hmem, -⟩ := (h.file 0 data ro).mp hinode
    rw [h.laid.root] at hq
    rw [← Option.some.inj hq] at hmem
    exact absurd hmem (hne data)
  · exact ⟨contents, hinode⟩
  · exact absurd hinode (h.laid.kind 0)

/-- Files with valid names at places of which none is on the way to another. -/
structure Stageable (N : Type) (files : List (JsString × Bytes)) : Prop where
  names : ∀ file ∈ files, ∀ part ∈ split file.1, checkName (N := N) part = .ok ()
  apart : files.Pairwise fun f g => ¬split f.1 <+: split g.1 ∧ ¬split g.1 <+: split f.1

theorem Grown.stageFiles {files : List (JsString × Bytes)} (h : Grown readonly fs places present done)
    (hdone : ∀ q data, (q, data) ∈ done → q ≠ [] ∧ present q) (hfiles : Stageable N files)
    (hfree : ∀ file ∈ files, (∀ q data, (q, data) ∈ done → ¬q <+: split file.1) ∧
      ¬present (split file.1)) :
    ∃ fs' places', files.foldlM (TsSdk.stageFile (N := N) readonly) fs = .ok fs' ∧
      Grown readonly fs' places' (fun q => present q ∨ ∃ file ∈ files, q <+: split file.1)
        (done ++ files.map fun file => (split file.1, file.2)) := by
  induction files generalizing fs places present done with
  | nil =>
      refine ⟨fs, places, rfl, ?_⟩
      rw [List.map_nil, List.append_nil]
      exact h.congr fun q => ⟨.inl, fun hq => hq.resolve_right fun ⟨_, hmem, _⟩ =>
        absurd hmem List.not_mem_nil⟩
  | cons file files ih =>
      obtain ⟨hnames, hapart⟩ := hfiles
      rw [List.forall_mem_cons] at hnames hfree
      obtain ⟨hfile, hrest⟩ := List.pairwise_cons.mp hapart
      obtain ⟨⟨hway, hplace⟩, hfrees⟩ := hfree
      obtain ⟨fs₁, places₁, hstage, hgrown⟩ := h.stageFile (N := N)
        (fun q data hmem => (hdone q data hmem).2)
        (h.isDirectory_root fun data hmem => (hdone [] data hmem).1 rfl) hnames.1 hway hplace
      have hdone' : ∀ q data, (q, data) ∈ done ++ [(split file.1, file.2)] →
          q ≠ [] ∧ (present q ∨ q <+: split file.1) := by
        intro q data hmem
        rcases List.mem_append.mp hmem with hmem | hmem
        · exact ⟨(hdone q data hmem).1, .inl (hdone q data hmem).2⟩
        · obtain ⟨rfl, -⟩ := Prod.mk.inj (List.mem_singleton.mp hmem)
          exact ⟨split_ne_nil file.1, .inr (List.prefix_refl _)⟩
      have hfree' : ∀ other ∈ files,
          (∀ q data, (q, data) ∈ done ++ [(split file.1, file.2)] → ¬q <+: split other.1) ∧
          ¬(present (split other.1) ∨ split other.1 <+: split file.1) := by
        intro other hother
        obtain ⟨hway', hplace'⟩ := hfrees other hother
        refine ⟨fun q data hmem => ?_, fun hpresent => ?_⟩
        · rcases List.mem_append.mp hmem with hmem | hmem
          · exact hway' q data hmem
          · obtain ⟨rfl, -⟩ := Prod.mk.inj (List.mem_singleton.mp hmem)
            exact (hfile other hother).1
        · rcases hpresent with hpresent | hpre
          · exact hplace' hpresent
          · exact (hfile other hother).2 hpre
      obtain ⟨fs', places', hstages, hgrown'⟩ := ih hgrown hdone' ⟨hnames.2, hrest⟩ hfree'
      refine ⟨fs', places', ?_, ?_⟩
      · rw [List.foldlM_cons, hstage]
        exact hstages
      · rw [List.map_cons]
        rw [List.append_assoc, List.singleton_append] at hgrown'
        refine hgrown'.congr fun q => ?_
        rw [List.exists_mem_cons_iff, or_assoc]

end

end TsSdk
