import LeveledTypes.Files.Disk
import Mathlib.Tactic

/-!
# What file operations change

A disk is seen through the contents of its files and the places of its directories. Writing a file
changes the content at one place, and no directory; making directories changes no file. A path that
leads to a place goes on leading there as long as no directory is lost.
-/
namespace LeveledTypes

namespace FileNode

/-- The content of a file; a directory has none. -/
def content? : FileNode → Option ByteArray
  | .file c => some c
  | .dir _ => none

/-- Setting an entry changes what is found under its name only. -/
theorem lookup_setEntry (es : List (String × FileNode)) (name x : String) (n : FileNode) :
    (setEntry es name n).lookup x = if x = name then some n else es.lookup x := by
  have hmap : (es.map fun e => if e.1 = name then (name, n) else e).lookup x =
      if x = name then (es.lookup x).map fun _ => n else es.lookup x := by
    induction es with
    | nil => simp
    | cons e es ih =>
      rw [List.map_cons, List.lookup_cons, List.lookup_cons]
      grind
  unfold setEntry
  by_cases hname : (es.lookup name).isSome
  · obtain ⟨m, hm⟩ := Option.isSome_iff_exists.mp hname
    rw [if_pos hname, hmap]
    by_cases hx : x = name
    · simp [hx, hm]
    · simp [hx]
  · have hnone : es.lookup name = none := by
      rwa [Bool.not_eq_true, Option.isSome_eq_false_iff, Option.isNone_iff_eq_none] at hname
    rw [if_neg hname, List.lookup_append]
    by_cases hx : x = name
    · simp [hx, hnone]
    · have hbeq : (x == name) = false := by simpa using hx
      simp [List.lookup_cons, hx, hbeq]

theorem lookup_filter_ne (es : List (String × FileNode)) (name x : String) :
    (es.filter fun e => decide (e.1 ≠ name)).lookup x = if x = name then none else es.lookup x := by
  induction es with
  | nil => simp
  | cons e es ih =>
    rw [List.filter_cons]
    grind

theorem get?_nil (n : FileNode) : n.get? [] = some n := rfl

theorem get?_cons (n : FileNode) (name : String) (names : List String) :
    n.get? (name :: names) = (n.entries.lookup name).bind (·.get? names) := by
  rw [get?]
  cases n.entries.lookup name <;> rfl

theorem get?_append (n : FileNode) (p q : List String) :
    n.get? (p ++ q) = (n.get? p).bind (·.get? q) := by
  induction p generalizing n with
  | nil => rfl
  | cons name p ih =>
    rw [List.cons_append, get?_cons, get?_cons]
    cases n.entries.lookup name with
    | none => rfl
    | some m => exact ih m

attribute [local simp] entries update

/-- Below a place whose parent is a directory stands what was put there. -/
theorem get?_update_below {n : FileNode} {parent : List String}
    {es : List (String × FileNode)} (name : String) (hparent : n.get? parent = some (.dir es))
    (m : Option FileNode) (q : List String) :
    (n.update (parent ++ [name]) m).get? (parent ++ name :: q) = m.bind (·.get? q) := by
  induction parent generalizing n with
  | nil =>
    obtain rfl : n = .dir es := by simpa [get?_nil] using hparent
    cases m with
    | none =>
      rw [List.nil_append, List.nil_append, get?_cons, update, entries, lookup_filter_ne,
        if_pos rfl]
    | some m => simp [get?_cons, entries, lookup_setEntry]
  | cons x parent ih =>
    cases n with
    | file c => simp [get?_cons, entries] at hparent
    | dir fs =>
      rw [get?_cons] at hparent
      obtain ⟨sub, hsub, hparent⟩ := Option.bind_eq_some_iff.mp hparent
      rw [List.cons_append, List.cons_append, get?_cons]
      have hupdate : update (.dir fs) (x :: (parent ++ [name])) m =
          .dir (setEntry fs x (sub.update (parent ++ [name]) m)) := by
        cases hp : parent ++ [name] with
        | nil => simp at hp
        | cons y ys =>
          have hlookup : fs.lookup x = some sub := hsub
          simp [hlookup]
      rw [hupdate]
      simpa [entries, lookup_setEntry] using ih hparent

/-- Below a place whose parent is no directory stands nothing, whatever is put there. -/
theorem get?_update_of_not_dir {n : FileNode} {parent : List String} (name : String)
    (hparent : ∀ es, n.get? parent ≠ some (.dir es)) (m : Option FileNode) (q : List String) :
    (n.update (parent ++ [name]) m).get? (parent ++ name :: q) = none := by
  induction parent generalizing n with
  | nil =>
    cases n with
    | file c => simp [get?_cons, entries]
    | dir es => exact absurd rfl (hparent es)
  | cons x parent ih =>
    cases n with
    | file c => simp [get?_cons, entries]
    | dir fs =>
      rw [List.cons_append, List.cons_append, get?_cons]
      cases hsub : fs.lookup x with
      | none =>
        have hupdate : update (.dir fs) (x :: (parent ++ [name])) m = .dir fs := by
          cases hp : parent ++ [name] with
          | nil => simp at hp
          | cons y ys => simp [hsub]
        rw [hupdate, entries, hsub, Option.bind_none]
      | some sub =>
        have hupdate : update (.dir fs) (x :: (parent ++ [name])) m =
            .dir (setEntry fs x (sub.update (parent ++ [name]) m)) := by
          cases hp : parent ++ [name] with
          | nil => simp at hp
          | cons y ys => simp [hsub]
        rw [hupdate, entries, lookup_setEntry, if_pos rfl]
        exact ih fun es hes => hparent es (by simpa [get?_cons, entries, hsub] using hes)

/-- A change at a place changes neither the files that are not at it or below it nor which places
are directories there. -/
theorem content?_get?_update {n : FileNode} {place q : List String} (h : ¬ place <+: q)
    (m : Option FileNode) : ((n.update place m).get? q).map content? = (n.get? q).map content? := by
  induction place generalizing n q with
  | nil => exact absurd (List.nil_prefix) h
  | cons x place ih =>
    cases n with
    | file c => rfl
    | dir es =>
      cases q with
      | nil =>
        have hdir : ∃ fs, update (.dir es) (x :: place) m = .dir fs := by
          cases place <;> cases m <;> simp only [update] <;> try exact ⟨_, rfl⟩
          all_goals cases es.lookup x <;> exact ⟨_, rfl⟩
        obtain ⟨fs, hfs⟩ := hdir
        rw [hfs]
        rfl
      | cons y q =>
        have hrest : y = x → ¬ place <+: q :=
          fun hy hp => h (by rw [hy]; exact (List.cons_prefix_cons).mpr ⟨rfl, hp⟩)
        rw [get?_cons, get?_cons]
        cases place with
        | nil =>
          have hy : y ≠ x := fun hy => hrest hy List.nil_prefix
          cases m with
          | none => rw [update, entries, lookup_filter_ne, if_neg hy]; rfl
          | some m => simp [entries, lookup_setEntry, hy]
        | cons z place =>
          cases hsub : es.lookup x with
          | none => simp [hsub]
          | some sub =>
            simp only [update, hsub, entries, lookup_setEntry]
            by_cases hy : y = x
            · subst hy
              simpa [hsub] using ih (n := sub) (hrest rfl)
            · simp [hy]

end FileNode

namespace Disk
variable {d d' : Disk}

/-- The content of the file at a place. -/
def fileAt (d : Disk) (q : List String) : Option ByteArray := (d.root.get? q).bind FileNode.content?

/-- There is a directory at the place. -/
def IsDirAt (d : Disk) (q : List String) : Prop := ∃ es, d.root.get? q = some (.dir es)

theorem IsDirAt.of_append {p q : List String} (h : d.IsDirAt (p ++ q)) (hq : q ≠ []) :
    d.IsDirAt p := by
  obtain ⟨es, h⟩ := h
  rw [FileNode.get?_append] at h
  obtain ⟨n, hn, h⟩ := Option.bind_eq_some_iff.mp h
  cases n with
  | dir fs => exact ⟨fs, hn⟩
  | file c =>
    cases q with
    | nil => contradiction
    | cons x q => simp [FileNode.get?_cons, FileNode.entries] at h

theorem IsDirAt.of_append_self {p q : List String} (h : d.IsDirAt (p ++ q)) : d.IsDirAt p := by
  cases q with
  | nil => simpa using h
  | cons x q => exact h.of_append (by simp)

/-- Nothing stands below a place that is no directory. -/
theorem get?_eq_none_of_not_isDirAt {p q : List String} (h : ¬ d.IsDirAt p) (hq : q ≠ []) :
    d.root.get? (p ++ q) = none := by
  rw [FileNode.get?_append]
  cases hp : d.root.get? p with
  | none => rfl
  | some n =>
    cases n with
    | dir es => exact absurd ⟨es, hp⟩ h
    | file c =>
      cases q with
      | nil => contradiction
      | cons x q => simp [FileNode.get?_cons, FileNode.entries]

/-- The second disk has the directories of the first one, and the same working directory. -/
structure Keeps (d d' : Disk) : Prop where
  working : d'.working = d.working
  dirs : ∀ q, d.IsDirAt q → d'.IsDirAt q

theorem Keeps.refl (d : Disk) : d.Keeps d := ⟨rfl, fun _ h => h⟩

theorem Keeps.trans {d'' : Disk} (h : d.Keeps d') (h' : d'.Keeps d'') : d.Keeps d'' :=
  ⟨h'.working.trans h.working, fun q hq => h'.dirs q (h.dirs q hq)⟩

/-- The place after a name, each with its names from the latest to the first. -/
def step (place : List String) (name : String) : List String :=
  if name = "." then place else if name = ".." then place.tail else name :: place

/-- The place that names lead to, whether or not directories are there. -/
def follow (place names : List String) : List String := (names.foldl step place).reverse

/-- The place that a path stands for if all directories on the way are there. -/
def placeOf (d : Disk) (p : FilePath) : List String :=
  follow (if p.isAbsolute then [] else d.working.reverse) p.names

theorem Keeps.placeOf_eq (h : d.Keeps d') (p : FilePath) : d'.placeOf p = d.placeOf p := by
  rw [placeOf, placeOf, h.working]

theorem follow_snoc {name : String} (hdot : name ≠ ".") (hdots : name ≠ "..")
    (place names : List String) :
    follow place (names ++ [name]) = follow place names ++ [name] := by
  simp [follow, step, hdot, hdots]

attribute [local simp] walk createFrom

/-- A walk looks at the place it has come to before it takes the next name. -/
theorem walk_cons (d : Disk) (place names : List String) (name : String) :
    d.walk place (name :: names) = match d.root.get? place.reverse with
      | none => .error .notFound
      | some (.file _) => .error .notADirectory
      | some (.dir _) => d.walk (step place name) names := by
  by_cases hdot : name = "."
  · subst hdot
    rfl
  · by_cases hdots : name = ".."
    · subst hdots
      rfl
    · rw [step, if_neg hdot, if_neg hdots]
      exact walk.eq_4 d place name names hdot hdots

theorem walk_cons_eq_ok {place names p : List String} {name : String} :
    d.walk place (name :: names) = .ok p ↔ d.IsDirAt place.reverse ∧
    d.walk (step place name) names = .ok p := by
  rw [walk_cons, IsDirAt]
  cases d.root.get? place.reverse with
  | none => simp
  | some n => cases n <;> simp

theorem eq_follow_of_walk {place names p : List String} (h : d.walk place names = .ok p) :
    p = follow place names := by
  induction names generalizing place with
  | nil => simpa [follow] using h.symm
  | cons name names ih =>
    rw [walk_cons_eq_ok] at h
    exact ih h.2

/-- A walk goes on leading to the same place. -/
theorem Keeps.walk_eq_ok (h : d.Keeps d') {place names p : List String}
    (hp : d.walk place names = .ok p) : d'.walk place names = .ok p := by
  induction names generalizing place with
  | nil => simpa using hp
  | cons name names ih =>
    rw [walk_cons_eq_ok] at hp ⊢
    exact ⟨h.dirs _ hp.1, ih hp.2⟩

/-- A walk ends at a directory or right below one. -/
theorem parent_of_walk {place names p : List String} (hnames : names ≠ [])
    (h : d.walk place names = .ok p) :
    d.IsDirAt p ∨ ∃ parent name, p = parent ++ [name] ∧ d.IsDirAt parent := by
  induction names generalizing place with
  | nil => contradiction
  | cons name names ih =>
    rw [walk_cons_eq_ok] at h
    obtain ⟨hdir, hrest⟩ := h
    by_cases hlast : names = []
    · subst hlast
      have hp : p = (step place name).reverse := eq_follow_of_walk hrest
      by_cases hdot : name = "."
      · left
        simpa [hp, step, hdot] using hdir
      · by_cases hdots : name = ".."
        · left
          cases place with
          | nil => simpa [hp, step, hdots] using hdir
          | cons x place =>
            rw [List.reverse_cons] at hdir
            simpa [hp, step, hdots] using hdir.of_append_self
        · right
          exact ⟨place.reverse, name, by simp [hp, step, hdot, hdots], hdir⟩
    · exact ih hlast hrest

/-- A walk that ends by going up ends at a directory. -/
theorem isDirAt_of_walk_up {place names p : List String}
    (h : d.walk place (names ++ [".."]) = .ok p) : d.IsDirAt p := by
  induction names generalizing place with
  | nil =>
    rw [List.nil_append, walk_cons_eq_ok] at h
    obtain ⟨hdir, hrest⟩ := h
    have hp : p = place.tail.reverse := eq_follow_of_walk hrest
    cases place with
    | nil => simpa [hp] using hdir
    | cons x place =>
      rw [List.reverse_cons] at hdir
      simpa [hp] using hdir.of_append_self
  | cons name names ih =>
    rw [List.cons_append, walk_cons_eq_ok] at h
    exact ih h.2

theorem walk_of_locate {p : FilePath} {q : List String} (h : d.locate p = .ok q) :
    d.walk (if p.isAbsolute then [] else d.working.reverse) p.names = .ok q := by
  unfold locate at h
  split at h
  · simp at h
  · exact h

theorem eq_placeOf_of_locate {p : FilePath} {q : List String} (h : d.locate p = .ok q) :
    q = d.placeOf p := by
  exact eq_follow_of_walk (walk_of_locate h)

theorem Keeps.locate_eq_ok (h : d.Keeps d') {p : FilePath} {q : List String}
    (hq : d.locate p = .ok q) : d'.locate p = .ok q := by
  unfold locate at hq ⊢
  split at hq
  · simp at hq
  · rename_i htext
    rw [if_neg htext, h.working]
    exact h.walk_eq_ok hq

/-- A file that is read is the one at the place that its path leads to. -/
theorem read_eq_ok {p : FilePath} {c : ByteArray} :
    d.read p = .ok c ↔ ∃ q, d.locate p = .ok q ∧ d.fileAt q = some c := by
  unfold read node fileAt
  cases hq : d.locate p with
  | error f => simp [bind, Except.bind]
  | ok q =>
    cases hn : d.root.get? q with
    | none => simp [bind, Except.bind, hn, throw, throwThe, MonadExceptOf.throw]
    | some n =>
      cases n <;> simp [bind, Except.bind, hn, FileNode.content?, pure, Except.pure, throw,
        throwThe, MonadExceptOf.throw]

/-- A file that is read stands at the place of its path. -/
theorem fileAt_of_read {p : FilePath} {c : ByteArray} (h : d.read p = .ok c) :
    d.fileAt (d.placeOf p) = some c := by
  rw [read_eq_ok] at h
  obtain ⟨q, hq, hc⟩ := h
  rwa [← eq_placeOf_of_locate hq]

/-- A file that is read is read again if it is still at its place. -/
theorem Keeps.read_eq_ok (h : d.Keeps d') {p : FilePath} {c c' : ByteArray} (hc : d.read p = .ok c)
    (hc' : d'.fileAt (d.placeOf p) = some c') : d'.read p = .ok c' := by
  obtain ⟨q, hq, -⟩ := Disk.read_eq_ok.mp hc
  rw [← eq_placeOf_of_locate hq] at hc'
  exact Disk.read_eq_ok.mpr ⟨q, h.locate_eq_ok hq, hc'⟩

section Changes

theorem isDirAt_iff {q : List String} :
    d.IsDirAt q ↔ (d.root.get? q).map FileNode.content? = some none := by
  cases h : d.root.get? q with
  | none => simp [IsDirAt, h]
  | some n => cases n <;> simp [IsDirAt, h, FileNode.content?]

theorem fileAt_eq_some {q : List String} {c : ByteArray} :
    d.fileAt q = some c ↔ (d.root.get? q).map FileNode.content? = some (some c) := by
  cases h : d.root.get? q with
  | none => simp [fileAt, h]
  | some n => cases n <;> simp [fileAt, h, FileNode.content?]

theorem not_isDirAt_of_fileAt {q : List String} {c : ByteArray} (h : d.fileAt q = some c) :
    ¬ d.IsDirAt q := by
  rw [fileAt_eq_some] at h
  simp [isDirAt_iff, h]

/-- Whatever is put at or taken from a place below a directory, where no directory stands, the rest
stays. -/
theorem view_set {parent : List String} {name : String} (hparent : d.IsDirAt parent)
    (hplace : ¬ d.IsDirAt (parent ++ [name])) (m : Option FileNode)
    (hm : ∀ n ∈ m, ∀ x q, n.get? (x :: q) = none) (q : List String) :
    ((d.set (parent ++ [name]) m).root.get? q).map FileNode.content? =
      if q = parent ++ [name] then m.map FileNode.content? else (d.root.get? q).map
        FileNode.content? := by
  by_cases hq : parent ++ [name] <+: q
  · obtain ⟨rest, rfl⟩ := hq
    obtain ⟨es, hes⟩ := hparent
    have hbelow := FileNode.get?_update_below name hes m rest
    rw [set, List.append_assoc, List.singleton_append, hbelow]
    cases rest with
    | nil => cases m <;> simp [FileNode.get?_nil]
    | cons x rest =>
      have hnone : d.root.get? ((parent ++ [name]) ++ x :: rest) = none :=
        get?_eq_none_of_not_isDirAt hplace (by simp)
      rw [List.append_assoc, List.singleton_append] at hnone
      cases m with
      | none => simp [hnone]
      | some n => simp [hnone, hm n rfl]
  · have hne : q ≠ parent ++ [name] := fun h => hq (h ▸ List.prefix_refl _)
    rw [if_neg hne]
    exact FileNode.content?_get?_update hq m

variable {parent : List String} {name : String}

/-- Writing a file changes the content of that file only, if its directory is there and no directory
has its name. -/
theorem fileAt_set_file (hparent : d.IsDirAt parent)
    (hplace : ¬ d.IsDirAt (parent ++ [name])) (c : ByteArray) (q : List String) :
    (d.set (parent ++ [name]) (some (.file c))).fileAt q = if q = parent ++
    [name] then some c else d.fileAt q := by
  have hview := view_set hparent hplace (some (.file c))
    (by simp [FileNode.get?_cons, FileNode.entries]) q
  by_cases hq : q = parent ++ [name]
  · rw [if_pos hq, fileAt_eq_some]
    simpa [hq, FileNode.content?] using hview
  · rw [if_neg hq] at hview ⊢
    ext c'
    rw [fileAt_eq_some, fileAt_eq_some, hview]

theorem keeps_set_file (hparent : d.IsDirAt parent) (hplace : ¬ d.IsDirAt (parent ++ [name]))
    (c : ByteArray) : d.Keeps (d.set (parent ++ [name]) (some (.file c))) := by
  refine ⟨rfl, fun q hq => ?_⟩
  have hview := view_set hparent hplace (some (.file c))
    (by simp [FileNode.get?_cons, FileNode.entries]) q
  have hne : q ≠ parent ++ [name] := fun h => hplace (h ▸ hq)
  rw [if_neg hne] at hview
  rw [isDirAt_iff] at hq ⊢
  rw [hview, hq]

/-- Removing a file takes away that file only. -/
theorem fileAt_set_none (hparent : d.IsDirAt parent) (hplace : ¬ d.IsDirAt (parent ++ [name]))
    (q : List String) : (d.set (parent ++ [name]) none).fileAt q = if q = parent ++
    [name] then none else d.fileAt q := by
  have hview := view_set hparent hplace none (by simp) q
  by_cases hq : q = parent ++ [name]
  · rw [if_pos hq] at hview ⊢
    ext c'
    simp [fileAt_eq_some, hview]
  · rw [if_neg hq] at hview ⊢
    ext c'
    rw [fileAt_eq_some, fileAt_eq_some, hview]

theorem keeps_set_none (hparent : d.IsDirAt parent) (hplace : ¬ d.IsDirAt (parent ++ [name])) :
    d.Keeps (d.set (parent ++ [name]) none) := by
  refine ⟨rfl, fun q hq => ?_⟩
  have hview := view_set hparent hplace none (by simp) q
  have hne : q ≠ parent ++ [name] := fun h => hplace (h ▸ hq)
  rw [if_neg hne] at hview
  rw [isDirAt_iff] at hq ⊢
  rw [hview, hq]

/-- A file is written right below a directory, where no directory stands. -/
theorem write_eq_ok {p : FilePath} {c : ByteArray} (hnames : p.names ≠ [])
    (h : d.write p c = .ok d') :
    ∃ parent name, d.locate p = .ok (parent ++ [name]) ∧ d.IsDirAt parent ∧
      ¬ d.IsDirAt (parent ++ [name]) ∧ d' = d.set (parent ++ [name]) (some (.file c)) := by
  unfold write at h
  cases hq : d.locate p with
  | error f => simp [hq, bind, Except.bind] at h
  | ok q =>
    have hdir : ¬ d.IsDirAt q := by
      rintro ⟨es, hes⟩
      simp [hq, bind, Except.bind, hes, throw, throwThe, MonadExceptOf.throw] at h
    have hset : d' = d.set q (some (.file c)) := by
      simp only [hq, bind, Except.bind] at h
      split at h
      · simp [throw, throwThe, MonadExceptOf.throw] at h
      · simpa [pure, Except.pure] using h.symm
    obtain hself | ⟨parent, name, rfl, hparent⟩ := parent_of_walk hnames (walk_of_locate hq)
    · exact absurd hself hdir
    · exact ⟨parent, name, rfl, hparent, hdir, hset⟩

theorem keeps_set_dir (hparent : d.IsDirAt parent) (hplace : ¬ d.IsDirAt (parent ++ [name])) :
    d.Keeps (d.set (parent ++ [name]) (some (.dir []))) := by
  refine ⟨rfl, fun q hq => ?_⟩
  have hview := view_set hparent hplace (some (.dir []))
    (by simp [FileNode.get?_cons, FileNode.entries]) q
  have hne : q ≠ parent ++ [name] := fun h => hplace (h ▸ hq)
  rw [if_neg hne] at hview
  rw [isDirAt_iff] at hq ⊢
  rw [hview, hq]

/-- Making a directory changes no file. -/
theorem fileAt_set_dir (hparent : d.IsDirAt parent) (hplace : d.root.get? (parent ++ [name]) = none)
    (q : List String) : (d.set (parent ++ [name]) (some (.dir []))).fileAt q = d.fileAt q := by
  have hdir : ¬ d.IsDirAt (parent ++ [name]) := by simp [IsDirAt, hplace]
  have hview := view_set hparent hdir (some (.dir []))
    (by simp [FileNode.get?_cons, FileNode.entries]) q
  ext c
  rw [fileAt_eq_some, fileAt_eq_some, hview]
  by_cases hq : q = parent ++ [name]
  · simp [hq, hplace, FileNode.content?]
  · rw [if_neg hq]

/-- One equation for all kinds of names: a dot and two dots are steps, any other name is looked up
and made if nothing is there. -/
theorem createFrom_cons (d : Disk) (place names : List String) (name : String) :
    d.createFrom place (name :: names) = if name = "." ∨
    name = ".." then d.createFrom (step place name) names
      else match d.root.get? (name :: place).reverse with
        | some (.dir _) => d.createFrom (name :: place) names
        | some (.file _) => .error (if names.isEmpty then .alreadyExists else .notADirectory)
        | none => (d.set (name :: place).reverse (some (.dir []))).createFrom
          (name :: place) names := by
  by_cases hdot : name = "."
  · subst hdot
    rfl
  · by_cases hdots : name = ".."
    · subst hdots
      rfl
    · rw [if_neg (not_or.mpr ⟨hdot, hdots⟩)]
      exact createFrom.eq_4 d place name names hdot hdots

/-- Where no directory is, nothing can be put. -/
theorem view_set_of_not_isDirAt (hparent : ¬ d.IsDirAt parent) (m : Option FileNode)
    (q : List String) : ((d.set (parent ++ [name]) m).root.get? q).map FileNode.content? =
    (d.root.get? q).map FileNode.content? := by
  by_cases hq : parent ++ [name] <+: q
  · obtain ⟨rest, rfl⟩ := hq
    have hbefore : d.root.get? (parent ++ name :: rest) = none :=
      get?_eq_none_of_not_isDirAt hparent (by simp)
    have hafter := FileNode.get?_update_of_not_dir name (fun es hes => hparent ⟨es, hes⟩) m rest
    rw [set, List.append_assoc, List.singleton_append, hbefore, hafter]
  · exact FileNode.content?_get?_update hq m

theorem keeps_of_view (hworking : d'.working = d.working)
    (h : ∀ q, (d'.root.get? q).map FileNode.content? = (d.root.get? q).map FileNode.content?) :
    d.Keeps d' ∧ ∀ q, d'.fileAt q = d.fileAt q := by
  refine ⟨⟨hworking, fun q hq => ?_⟩, fun q => ?_⟩
  · rwa [isDirAt_iff, h, ← isDirAt_iff]
  · ext c
    rw [fileAt_eq_some, fileAt_eq_some, h]

/-- Making a directory with those before it changes no file. -/
theorem createFrom_eq_ok {place names : List String} (h : d.createFrom place names = .ok d') :
    d.Keeps d' ∧ ∀ q, d'.fileAt q = d.fileAt q := by
  induction names generalizing place d with
  | nil =>
    obtain rfl : d = d' := by simpa using h
    exact ⟨.refl d, fun _ => rfl⟩
  | cons name names ih =>
    rw [createFrom_cons] at h
    split at h
    case isTrue => exact ih h
    case isFalse =>
      split at h
      case h_1 => exact ih h
      case h_2 => simp at h
      case h_3 hnone =>
        have hset : d.Keeps (d.set (name :: place).reverse (some (.dir []))) ∧
            ∀ q, (d.set (name :: place).reverse (some (.dir []))).fileAt q = d.fileAt q := by
          rw [List.reverse_cons] at hnone ⊢
          by_cases hparent : d.IsDirAt place.reverse
          · have hdir : ¬ d.IsDirAt (place.reverse ++ [name]) := by simp [IsDirAt, hnone]
            exact ⟨keeps_set_dir hparent hdir, fileAt_set_dir hparent hnone⟩
          · exact keeps_of_view rfl (view_set_of_not_isDirAt hparent _)
        obtain ⟨hkeeps, hfiles⟩ := ih h
        exact ⟨hset.1.trans hkeeps, fun q => (hfiles q).trans (hset.2 q)⟩

end Changes

end Disk

end LeveledTypes
