import LeveledTypes.Proofs.Archive.Entry
import LeveledTypes.Proofs.Files.Disk
import LeveledTypes.Session.Basic

/-!
# Entries on a disk

The name of the file of an entry ends with the extension of the cache, that of its draft does not.
So storing an entry leaves at the place of each entry what was there or puts the new entry there,
whether it comes to an end or not; if it does, the entry can be read. An entry that does not fit the
format is not stored.
-/
namespace LeveledTypes

namespace FilePath

theorem pieces_ne_nil (cs : List Char) : pieces cs ≠ [] := by
  cases cs with
  | nil => simp [pieces]
  | cons c cs =>
    rw [pieces]
    split
    · simp
    · split <;> simp

theorem pieces_append_slash (as bs : List Char) :
    pieces (as ++ '/' :: bs) = pieces as ++ pieces bs := by
  induction as with
  | nil => simp [pieces]
  | cons a as ih =>
    by_cases ha : a = '/'
    · simp [pieces, ha, ih]
    · obtain ⟨p, ps, hps⟩ := List.exists_cons_of_ne_nil (pieces_ne_nil as)
      simp [pieces, ha, ih, hps]

theorem pieces_of_not_mem {cs : List Char} (h : '/' ∉ cs) : pieces cs = [cs] := by
  induction cs with
  | nil => rfl
  | cons c cs ih =>
    obtain ⟨hc, hcs⟩ := not_or.mp (List.mem_cons.not.mp h)
    simp [pieces, Ne.symm hc, ih hcs]

/-- A text is the part up to its last slash, and a name. -/
theorem exists_last (cs : List Char) : ∃ parent last, cs = parent ++ last ∧ '/' ∉ last ∧
    (parent = [] ∨ ∃ as, parent = as ++ ['/']) := by
  induction cs using List.reverseRecOn with
  | nil => exact ⟨[], [], rfl, by simp, .inl rfl⟩
  | append_singleton cs c ih =>
    by_cases hc : c = '/'
    · exact ⟨cs ++ [c], [], by simp, by simp, .inr ⟨cs, by rw [hc]⟩⟩
    · obtain ⟨parent, last, rfl, hlast, hparent⟩ := ih
      refine ⟨parent, last ++ [c], by simp, ?_, hparent⟩
      simpa [Ne.symm hc] using hlast

/-- The names of a path before the last one do not depend on the last one. -/
theorem exists_names_eq {parent : List Char} (hparent : parent = [] ∨ ∃ as, parent = as ++ ['/']) :
    ∃ before, ∀ last, '/' ∉ last → last ≠ [] →
      (⟨String.ofList (parent ++ last)⟩ : FilePath).names = before ++ [String.ofList last] := by
  obtain rfl | ⟨as, rfl⟩ := hparent
  · refine ⟨[], fun last hlast hne => ?_⟩
    simp [names, pieces_of_not_mem hlast, hne]
  · refine ⟨((pieces as).map String.ofList).filter (· ≠ ""), fun last hlast hne => ?_⟩
    simp [names, pieces_append_slash, pieces_of_not_mem hlast, hne]

theorem mem_of_mem_stem {name : String} {c : Char} (h : c ∈ (stem name).toList) :
    c ∈ name.toList := by
  simp only [stem, splitExtension] at h
  split at h
  · exact h
  · split at h
    · exact h
    · rw [String.toList_ofList] at h
      exact List.mem_of_mem_take h

/-- A name with another extension is two dots, or ends with that extension. -/
theorem withExtension_eq (name ext : String) (hext : ext ≠ "") :
    withExtension name ext = ".." ∨ withExtension name ext = stem name ++ "." ++ ext := by
  simp only [withExtension, if_neg hext]
  split
  · exact .inl rfl
  · exact .inr rfl

end FilePath

namespace Work
variable {d d' : Disk} {dir : FilePath}

/-- The names of the path of an entry and of its draft differ in the last one only, and that is no
dot for the entry. -/
theorem exists_names_entryPath (dir : FilePath) (module : String) : ∃ before name draft,
    (entryPath dir module).names = before ++ [name] ∧
    (draftPath (entryPath dir module)).names = before ++ [draft] ∧
      ".vcc".toList <:+ name.toList ∧ (draft = ".." ∨ ".vcc.tmp".toList <:+ draft.toList) := by
  obtain ⟨start, hstart⟩ : ∃ start, (entryPath dir module).text.toList = start ++
      ".vcc".toList := by
    have hlast : (module ++ "." ++ cacheExtension).toList = module.toList ++ ".vcc".toList := by
      simp [cacheExtension]
    unfold entryPath FilePath.join
    split
    · exact ⟨_, hlast⟩
    · split
      · exact ⟨_, by rw [String.toList_append, hlast, List.append_assoc]⟩
      · exact ⟨_, by rw [String.toList_append, hlast, List.append_assoc]⟩
  obtain ⟨parent, last, rfl, hlast, hparent⟩ := FilePath.exists_last start
  obtain ⟨before, hbefore⟩ := FilePath.exists_names_eq hparent
  let name := String.ofList (last ++ ".vcc".toList)
  let draft := FilePath.withExtension name (cacheExtension ++ ".tmp")
  have hslash : '/' ∉ name.toList := by simpa [name] using hlast
  have hdraft : draft = ".." ∨ draft = FilePath.stem name ++ "." ++ (cacheExtension ++ ".tmp") :=
    FilePath.withExtension_eq name _ (by simp [cacheExtension])
  have hpath : entryPath dir module = ⟨String.ofList (parent ++ name.toList)⟩ := by
    rw [String.toList_ofList, ← List.append_assoc, ← hstart, String.ofList_toList]
  have hnames : (entryPath dir module).names = before ++ [name] := by
    rw [hpath, hbefore _ hslash (by simp [name]), String.ofList_toList]
  have hdraftPath : draftPath (entryPath dir module) =
      ⟨String.ofList (parent ++ draft.toList)⟩ := by
    have htake : (String.ofList parent ++ name).toList.take
        ((String.ofList parent ++ name).length - name.length) = parent := by
      rw [String.length_append, Nat.add_sub_cancel, String.toList_append, String.toList_ofList,
        String.length_ofList, List.take_left]
    rw [draftPath, hnames, List.getLast?_concat]
    simp only [hpath, String.ofList_append, String.ofList_toList, htake]
    rfl
  refine ⟨before, name, draft, hnames, ?_, ?_, hdraft.imp_right fun h => ?_⟩
  · rw [hdraftPath, hbefore, String.ofList_toList]
    · obtain h | h := hdraft
      · rw [h]
        decide
      · rw [h]
        have hstem : '/' ∉ (FilePath.stem name).toList :=
          fun hc => hslash (FilePath.mem_of_mem_stem hc)
        simp [cacheExtension, hstem]
    · obtain h | h := hdraft <;> simp [h]
  · rw [show name.toList = last ++ ".vcc".toList from String.toList_ofList]
    exact List.suffix_append _ _
  · rw [h]
    simp [cacheExtension]

theorem suffix_snoc_inj {a b : List Char} {x y : String} {p q : List String}
    (h : p ++ [x] = q ++ [y]) (ha : a <:+ x.toList) (hb : b <:+ y.toList) : a <:+ b ∨ b <:+ a := by
  obtain rfl : x = y := (List.append_inj' h rfl).2 |> List.singleton_inj.mp
  exact List.suffix_or_suffix_of_suffix ha hb

/-- The place of an entry ends with a name that has the extension of the cache. -/
theorem exists_placeOf_entryPath (d : Disk) (dir : FilePath) (module : String) :
    ∃ parent name, d.placeOf (entryPath dir module) = parent ++ [name] ∧
      ".vcc".toList <:+ name.toList := by
  obtain ⟨before, name, _, hnames, -, hname, -⟩ := exists_names_entryPath dir module
  have hdot : name ≠ "." := by
    rintro rfl
    revert hname
    decide
  have hdots : name ≠ ".." := by
    rintro rfl
    revert hname
    decide
  refine ⟨Disk.follow (if (entryPath dir module).isAbsolute then [] else d.working.reverse) before,
    name, ?_, hname⟩
  rw [Disk.placeOf, hnames, Disk.follow_snoc hdot hdots]

/-- A draft is written to a place where no entry is. -/
theorem placeOf_ne_of_write_draft {module : String} {c : ByteArray}
    (h : d.write (draftPath (entryPath dir module)) c = .ok d') :
    ∃ parent name, d.locate (draftPath (entryPath dir module)) = .ok (parent ++ [name]) ∧
      d.IsDirAt parent ∧
      ¬ d.IsDirAt (parent ++ [name]) ∧ d' = d.set (parent ++ [name]) (some (.file c)) ∧
      ∀ other, d.placeOf (entryPath dir other) ≠ parent ++ [name] := by
  obtain ⟨before, _, draft, -, hnames, -, hdraft⟩ := exists_names_entryPath dir module
  obtain ⟨parent, name, hlocate, hparent, hplace, hset⟩ := Disk.write_eq_ok (by simp [hnames]) h
  refine ⟨parent, name, hlocate, hparent, hplace, hset, fun other hother => ?_⟩
  have hwalk := Disk.walk_of_locate hlocate
  rw [hnames] at hwalk
  obtain rfl | hdraft := hdraft
  · exact hplace (Disk.isDirAt_of_walk_up hwalk)
  · have hfollow := Disk.eq_follow_of_walk hwalk
    rw [Disk.follow_snoc] at hfollow
    · obtain ⟨q, x, hq, hx⟩ := exists_placeOf_entryPath d dir other
      obtain h | h := suffix_snoc_inj (hq.symm.trans (hother.trans hfollow)) hx hdraft
      · revert h
        decide
      · revert h
        decide
    · rintro rfl
      revert hdraft
      decide
    · rintro rfl
      revert hdraft
      decide

/-- What storing an entry does to a disk: no directory is lost, and the file of any entry is as
before or the new one. -/
structure Places (d : Disk) (dir : FilePath) (e : CacheEntry) (d' : Disk) : Prop where
  keeps : d.Keeps d'
  fileAt : ∀ module, d'.fileAt (d.placeOf (entryPath dir module)) = d.fileAt
    (d.placeOf (entryPath dir module)) ∨
    e.Fits ∧ d.placeOf (entryPath dir module) = d.placeOf (entryPath dir e.module) ∧
      d'.fileAt (d.placeOf (entryPath dir module)) = some ⟨e.encode.toArray⟩

theorem Places.of_fileAt {e : CacheEntry} (hkeeps : d.Keeps d')
    (h : ∀ module, d'.fileAt (d.placeOf (entryPath dir module)) = d.fileAt
      (d.placeOf (entryPath dir module))) :
    Places d dir e d' := ⟨hkeeps, fun module => .inl (h module)⟩

theorem Places.trans {d'' : Disk} {e : CacheEntry} (h : Places d dir e d')
    (h' : Places d' dir e d'') :
    Places d dir e d'' := by
  refine ⟨h.keeps.trans h'.keeps, fun module => ?_⟩
  have hfile' := h'.fileAt module
  rw [h.keeps.placeOf_eq, h.keeps.placeOf_eq] at hfile'
  obtain hsame | hnew := hfile'
  · rw [hsame]
    exact h.fileAt module
  · exact .inr hnew

theorem places_write_draft {module : String} {c : ByteArray} {e : CacheEntry}
    (h : d.write (draftPath (entryPath dir module)) c = .ok d') : Places d dir e d' := by
  obtain ⟨parent, name, -, hparent, hplace, rfl, hne⟩ := placeOf_ne_of_write_draft h
  refine .of_fileAt (Disk.keeps_set_file hparent hplace c) fun other => ?_
  rw [Disk.fileAt_set_file hparent hplace, if_neg (hne other)]

/-- The file of an entry is written at its place. -/
theorem write_entry {module : String} {c : ByteArray}
    (h : d.write (entryPath dir module) c = .ok d') :
    d.Keeps d' ∧ d'.locate (entryPath dir module) = .ok (d.placeOf (entryPath dir module)) ∧
      ∀ q, d'.fileAt q = if q = d.placeOf (entryPath dir module) then some c else d.fileAt q := by
  obtain ⟨before, name, _, hnames, -⟩ := exists_names_entryPath dir module
  obtain ⟨parent, name, hlocate, hparent, hplace, rfl⟩ := Disk.write_eq_ok (by simp [hnames]) h
  have hkeeps := Disk.keeps_set_file hparent hplace c
  rw [← Disk.eq_placeOf_of_locate hlocate]
  exact ⟨hkeeps, hkeeps.locate_eq_ok hlocate, Disk.fileAt_set_file hparent hplace c⟩

/-- A draft that takes the place of an entry is gone, and its content stands in that place. -/
theorem rename_draft {e : CacheEntry} {c : ByteArray} {d₁ d₂ : Disk}
    (hwrite : d.write (draftPath (entryPath dir e.module)) c = .ok d₁)
    (hrename : d₁.rename (draftPath (entryPath dir e.module)) (entryPath dir e.module) = .ok d₂) :
    d₁.Keeps d₂ ∧ d₂.locate (entryPath dir e.module) = .ok (d₁.placeOf (entryPath dir e.module)) ∧
      ∀ module, d₂.fileAt (d₁.placeOf (entryPath dir module)) =
        if d₁.placeOf (entryPath dir module) = d₁.placeOf (entryPath dir e.module) then some c
        else d₁.fileAt (d₁.placeOf (entryPath dir module)) := by
  obtain ⟨parent, name, hlocate, hparent, hplace, rfl, hne⟩ := placeOf_ne_of_write_draft hwrite
  have hkeeps₁ := Disk.keeps_set_file hparent hplace c
  have hread : (d.set (parent ++ [name]) (some (.file c))).read
      (draftPath (entryPath dir e.module)) = .ok c := by
    refine Disk.read_eq_ok.mpr ⟨_, hkeeps₁.locate_eq_ok hlocate, ?_⟩
    rw [Disk.fileAt_set_file hparent hplace, if_pos rfl]
  rw [Disk.rename, hkeeps₁.locate_eq_ok hlocate] at hrename
  simp only [hread, bind, Except.bind] at hrename
  split at hrename
  case h_1 => simp at hrename
  case h_2 d₃ hd₃ =>
    obtain rfl : d₃.set (parent ++ [name]) none = d₂ := by simpa [pure, Except.pure] using hrename
    obtain ⟨hkeeps₃, hlocate₃, hfiles₃⟩ := write_entry hd₃
    have hother (module : String) :
        (d.set (parent ++ [name]) (some (.file c))).placeOf (entryPath dir module) ≠
          parent ++ [name] := by
      rw [hkeeps₁.placeOf_eq]
      exact hne module
    have hparent₃ : d₃.IsDirAt parent := hkeeps₃.dirs _ (hkeeps₁.dirs _ hparent)
    have hplace₃ : ¬ d₃.IsDirAt (parent ++ [name]) := by
      refine Disk.not_isDirAt_of_fileAt (c := c) ?_
      rw [hfiles₃, if_neg (hother e.module).symm, Disk.fileAt_set_file hparent hplace, if_pos rfl]
    have hkeeps₂ := Disk.keeps_set_none hparent₃ hplace₃
    refine ⟨hkeeps₃.trans hkeeps₂, hkeeps₂.locate_eq_ok hlocate₃, fun module => ?_⟩
    rw [Disk.fileAt_set_none hparent₃ hplace₃, if_neg (hother module), hfiles₃]

theorem createDirAll_eq_ok {p : FilePath} (h : d.createDirAll p = .ok d') :
    d.Keeps d' ∧ ∀ q, d'.fileAt q = d.fileAt q :=
  Disk.createFrom_eq_ok h

/-- Storing an entry, whether it comes to an end or not, puts nothing but that entry at the places
of entries. -/
theorem places_placeEntry (d : Disk) (dir : FilePath) (e : CacheEntry) :
    Places d dir e (placeEntry d dir e).2 := by
  unfold placeEntry
  simp only
  split
  case h_1 => exact .of_fileAt (.refl d) fun _ => rfl
  case h_2 d₀ hd₀ =>
    obtain ⟨hkeeps₀, hfiles₀⟩ := createDirAll_eq_ok hd₀
    have hcreate : Places d dir e d₀ := .of_fileAt hkeeps₀ fun _ => hfiles₀ _
    split
    case h_1 => exact hcreate
    case h_2 bytes hbytes =>
      obtain ⟨he, rfl⟩ := CacheEntry.encode?_eq_some.mp hbytes
      split
      case h_1 => exact hcreate
      case h_2 d₁ hd₁ =>
        have hdraft : Places d₀ dir e d₁ := places_write_draft hd₁
        split
        case h_1 => exact hcreate.trans hdraft
        case h_2 d₂ hd₂ =>
          obtain ⟨hkeeps₂, -, hfiles₂⟩ := rename_draft hd₁ hd₂
          refine hcreate.trans (hdraft.trans ⟨hkeeps₂, fun module => ?_⟩)
          rw [hfiles₂]
          by_cases hplace : d₁.placeOf (entryPath dir module) = d₁.placeOf (entryPath dir e.module)
          · exact .inr ⟨he, hplace, if_pos hplace⟩
          · exact .inl (if_neg hplace)

/-- An entry that has been stored fits the format and can be read. -/
theorem read_placeEntry {e : CacheEntry} (h : (placeEntry d dir e).1 = .ok ()) :
    e.Fits ∧ (placeEntry d dir e).2.read (entryPath dir e.module) = .ok ⟨e.encode.toArray⟩ := by
  unfold placeEntry at h ⊢
  simp only at h ⊢
  split at h
  case h_1 => simp at h
  case h_2 d₀ hd₀ =>
    split at h
    case h_1 => simp at h
    case h_2 bytes hbytes =>
      obtain ⟨he, rfl⟩ := CacheEntry.encode?_eq_some.mp hbytes
      split at h
      case h_1 => simp at h
      case h_2 d₁ hd₁ =>
        split at h
        case h_1 => simp at h
        case h_2 d₂ hd₂ =>
          obtain ⟨hkeeps₂, hlocate₂, hfiles₂⟩ := rename_draft hd₁ hd₂
          refine ⟨he, Disk.read_eq_ok.mpr ⟨_, hlocate₂, ?_⟩⟩
          rw [hfiles₂, if_pos rfl]

end Work

end LeveledTypes
