import LeveledTypes.Proofs.Surface.Derivation
import LeveledTypes.Surface.Reader

/-!
# The names that a module introduces

Every name that a declaration introduces is the name of the module with a short name behind it that
has no colon. So the name of the module can be read off it, and modules with different names
introduce different names.
-/
namespace LeveledTypes

namespace GlobalName

/-- The name is one that a module of the given name may introduce. -/
def IsOwn (module : String) (n : GlobalName) : Prop := ∃ short, n = .qualified module short ∧
    ':' ∉ short.toList

/-- The last separator of a longer text is that of its tail, if there is one. -/
theorem splitAtLast_cons (c : Char) (cs : List Char) :
    splitAtLast (c :: cs) = match splitAtLast cs with
      | some (l, r) => some (c :: l, r)
      | none => if c = ':' ∧ cs.head? = some ':' then some ([], cs.tail) else none := by
  rw [splitAtLast.eq_def]
  cases hsplit : splitAtLast cs with
  | some p => simp [hsplit]
  | none =>
    by_cases hc : c = ':'
    · subst hc
      cases cs with
      | nil => simp [hsplit]
      | cons d cs =>
        by_cases hd : d = ':'
        · subst hd
          simp [hsplit]
        · simp [hsplit, hd]
    · simp [hsplit, hc]

theorem splitAtLast_of_not_mem {cs : List Char} (h : ':' ∉ cs) : splitAtLast cs = none := by
  induction cs with
  | nil => rfl
  | cons c cs ih =>
    obtain ⟨hc, hcs⟩ := not_or.mp (List.mem_cons.not.mp h)
    simp [splitAtLast_cons, ih hcs, Ne.symm hc]

theorem splitAtLast_append {short : List Char} (h : ':' ∉ short) (module : List Char) :
    splitAtLast (module ++ ':' :: ':' :: short) = some (module, short) := by
  have hhead : short.head? ≠ some ':' := fun hs => h (List.mem_of_mem_head? hs)
  induction module with
  | nil => simp [splitAtLast_cons, splitAtLast_of_not_mem h, hhead]
  | cons c module ih => rw [List.cons_append, splitAtLast_cons, ih]

theorem splitAtLast_qualified {module short : String} (h : ':' ∉ short.toList) :
    splitAtLast (qualified module short).text.toList = some (module.toList, short.toList) := by
  have htext : (qualified module short).text.toList = module.toList ++ ':' :: ':' ::
      short.toList := by
    simp [qualified, separator]
  rw [htext, splitAtLast_append h]

theorem short_qualified {module short : String} (h : ':' ∉ short.toList) :
    (qualified module short).short = short := by
  rw [GlobalName.short, splitAtLast_qualified h]
  exact String.ofList_toList

theorem IsOwn.module_eq {module : String} {n : GlobalName} (h : n.IsOwn module) :
    n.module = module := by
  obtain ⟨short, rfl, hshort⟩ := h
  rw [GlobalName.module, splitAtLast_qualified hshort]
  exact String.ofList_toList

/-- A name is determined by its module and its short name. -/
theorem IsOwn.eq_of_short_eq {module : String} {n m : GlobalName} (hn : n.IsOwn module)
    (hm : m.IsOwn module) (h : n.short = m.short) : n = m := by
  obtain ⟨s, rfl, hs⟩ := hn
  obtain ⟨t, rfl, ht⟩ := hm
  rw [short_qualified hs, short_qualified ht] at h
  rw [h]

end GlobalName

namespace Grammar
variable {ρ : Type} {g : Grammar ρ} {R : ρ → Prop} {a b : Peg ρ} {r : ρ}

/-- All trees of a list that is derived are derived. -/
theorem derived_of_mem {e : Peg ρ} {ts : List (Tree ρ)} : g.Derives e ts → ∀ t ∈ ts, g.Derived t
  | .text _ | .char _ | .optNone _ | .notAhead _ | .finish => by simp
  | .silent _ h | .altLeft h | .altRight h | .optSome h => derived_of_mem h
  | .rule _ h => by simpa using h
  | .seq ha hb => fun t ht =>
    (List.mem_append.mp ht).elim (derived_of_mem ha t) (derived_of_mem hb t)
  | .star h => fun t ht => by
    obtain ⟨us, hus, ht⟩ := List.mem_flatten.mp ht
    exact derived_of_mem (h us hus) t ht

theorem Derived.children {t : Tree ρ} (h : g.Derived t) : ∀ c ∈ t.children, g.Derived c := by
  cases h with
  | atomic => simp [Tree.children]
  | normal _ h => exact derived_of_mem h

theorem Derived.derives {t : Tree ρ} (h : g.Derived t) (hkind : g.kind t.rule = .normal) :
    g.Derives (g.body t.rule) t.children := by
  cases h with
  | atomic hr => simp [Tree.rule, hr] at hkind
  | normal _ h => exact h

/-- All trees that an expression gives are of the given rules. -/
def Roots (g : Grammar ρ) (R : ρ → Prop) (e : Peg ρ) : Prop :=
  ∀ ts, g.Derives e ts → ∀ t ∈ ts, R t.rule

namespace Roots

theorem text (cs : List Char) : g.Roots R (.text cs) := by
  rintro ts ⟨⟩
  simp

theorem finish : g.Roots R .finish := by
  rintro ts ⟨⟩
  simp

theorem rule (hr : R r) (hkind : g.kind r ≠ .silent) : g.Roots R (.rule r) := by
  rintro ts h
  cases h with
  | silent hs => exact absurd hs hkind
  | rule ht => simpa [ht] using hr

theorem silent (h : g.Roots R (g.body r)) (hkind : g.kind r = .silent) : g.Roots R (.rule r) := by
  rintro ts hts
  cases hts with
  | silent _ hts => exact h _ hts
  | rule ht hd =>
    cases hd with
    | atomic hr => simp [← ht, Tree.rule, hr] at hkind
    | normal hr => simp [← ht, Tree.rule, hr] at hkind

theorem seq (ha : g.Roots R a) (hb : g.Roots R b) : g.Roots R (.seq a b) := by
  rintro ts h
  cases h with
  | seq h h' => exact fun t ht => (List.mem_append.mp ht).elim (ha _ h t) (hb _ h' t)

theorem alt (ha : g.Roots R a) (hb : g.Roots R b) : g.Roots R (.alt a b) := by
  rintro ts h
  cases h with
  | altLeft h => exact ha _ h
  | altRight h => exact hb _ h

theorem opt (ha : g.Roots R a) : g.Roots R (.opt a) := by
  rintro ts h
  cases h with
  | optNone => simp
  | optSome h => exact ha _ h

theorem star (ha : g.Roots R a) : g.Roots R (.star a) := by
  rintro ts h
  cases h with
  | star h =>
    intro t ht
    obtain ⟨us, hus, ht⟩ := List.mem_flatten.mp ht
    exact ha _ (h us hus) t ht

end Roots

/-- After a text comes the tree of a rule, then what the rest gives. -/
theorem derives_head {cs : List Char} {ts : List (Tree ρ)} (hkind : g.kind r ≠ .silent)
    (h : g.Derives (.seq (.text cs) (.seq (.rule r) b)) ts) :
    ∃ t us, ts = t :: us ∧ t.rule = r ∧ g.Derived t ∧ g.Derives b us := by
  cases h with
  | seq htext h =>
    cases htext
    cases h with
    | seq hrule hb =>
      cases hrule with
      | silent hr => exact absurd hr hkind
      | rule hr ht => exact ⟨_, _, rfl, hr, ht, hb⟩

end Grammar

namespace Surface

open Grammar Reader

/-- The rules of the declarations that a file consists of, the imports apart. -/
def Rule.IsDecl (r : Rule) : Prop := r = .funcDef ∨ r = .dataDef ∨ r = .classDef ∨ r = .instanceDef

theorem roots_file : grammar.Roots (fun r => r = .importDecl ∨ r.IsDecl) (grammar.body .file) := by
  have hrule {r : Rule} (hr : r = .importDecl ∨ r.IsDecl) (hkind : r.kind = .normal) :
      grammar.Roots (fun r => r = .importDecl ∨ r.IsDecl) (.rule r) :=
    .rule hr (by rw [show grammar.kind r = .normal from hkind]; simp)
  exact .seq (.text _) (.seq
    (.star (.alt (hrule (by simp) rfl)
      (.alt (hrule (by simp [Rule.IsDecl]) rfl)
        (.alt (hrule (by simp [Rule.IsDecl]) rfl) (.alt (hrule (by simp [Rule.IsDecl]) rfl)
      (hrule (by simp [Rule.IsDecl]) rfl)))))) .finish)

/-- An identifier is a leaf, and the characters that its rule allows are none of them colons. -/
theorem not_mem_of_ident {t : Tree Rule} (h : grammar.Derived t) (hrule : t.rule = .ident) :
    ':' ∉ t.text.toList := by
  cases h with
  | atomic hr htext =>
    obtain rfl := hrule
    have hchar {p : Char → Bool} (hp : p ':' = false) (c : Char) (hc : p c = true) : c ≠ ':' := by
      rintro rfl
      simp [hp] at hc
    have hunderscore : ∀ c ∈ "_".toList, c ≠ ':' := by simp
    have hdot : ∀ c ∈ ".".toList, c ≠ ':' := by simp
    have honly : (grammar.body .ident).Only (· ≠ ':') :=
      ⟨trivial, ⟨hchar rfl, hunderscore⟩, hchar rfl, hdot, hchar rfl, hchar rfl⟩
    exact fun hc => htext _ honly ':' hc rfl
  | normal hr =>
    obtain rfl := hrule
    cases hr

/-- What stands in a class behind its name. -/
def classParts : Peg Rule :=
  Peg.all [Rule.params, .opt (.rule .extends), .opt (Rule.braced (.star (.rule .field)))]

/-- The parts of a class are parameters, superclasses and fields, each a tree of its own rule. -/
theorem roots_classParts :
    grammar.Roots (fun r => r ∈ [.explicitParam, .implicitParam, .instanceParam, .extends, .field])
    classParts := by
  have hrule {r : Rule} (hr : r ∈ [Rule.explicitParam, .implicitParam, .instanceParam,
      .extends, .field])
      (hkind : grammar.kind r ≠ .silent) :
        grammar.Roots (fun r => r ∈ [.explicitParam, .implicitParam, .instanceParam,
        .extends, .field]) (.rule r) := .rule hr hkind
  have hparam : grammar.Roots
      (fun r => r ∈ [.explicitParam, .implicitParam, .instanceParam, .extends, .field])
      (.rule .param) :=
    .silent (.alt (hrule (by decide) (by decide))
      (.alt (hrule (by decide) (by decide)) (hrule (by decide) (by decide)))) rfl
  exact .seq (.star hparam) (.seq (.opt (hrule (by decide) (by decide)))
    (.opt (.seq (.text _) (.seq (.star (hrule (by decide) (by decide))) (.text _)))))

/-- The name of a declaration or of a class field is the first part of its tree. -/
theorem exists_ident {t : Tree Rule} (h : grammar.Derived t) (hrule : t.rule.IsDecl ∨
    t.rule = .field) : ∃ n rest, t.children = n :: rest ∧ ':' ∉ n.text.toList ∧
      (t.rule = .classDef → ∀ p ∈ rest, isParam p ∨ p.rule = .extends ∨ p.rule = .field) := by
  have hident : grammar.kind .ident ≠ .silent := by decide
  have hnormal : grammar.kind t.rule = .normal := by
    obtain (h | h | h | h) | h := hrule <;> rw [h] <;> rfl
  have hderives := h.derives hnormal
  obtain (hr | hr | hr | hr) | hr := hrule <;> rw [hr] at hderives ⊢
  case inl.inr.inr.inl =>
    obtain ⟨n, rest, hcs, hn, hd, hrest⟩ := derives_head hident hderives
    refine ⟨n, rest, hcs, not_mem_of_ident hd hn, fun _ p hp => ?_⟩
    have hparts := roots_classParts rest hrest p hp
    simp only [List.mem_cons, List.not_mem_nil, or_false] at hparts
    obtain hp | hp | hp | hp | hp := hparts <;> simp [isParam, hp]
  all_goals
    obtain ⟨n, rest, hcs, hn, hd, -⟩ := derives_head hident hderives
    exact ⟨n, rest, hcs, not_mem_of_ident hd hn, by simp⟩

section Reading
variable {module : String} {t : Tree Rule}

/-- All names that the body of a declaration introduces are the module's own. -/
def DeclBody.OwnNames (module : String) : DeclBody → Prop
  | .data _ cs => ∀ c ∈ cs, c.name.IsOwn module
  | .cls _ fs => ∀ f ∈ fs, f.name.IsOwn module
  | _ => True

/-- The name of a constructor is an identifier behind the name of the module. -/
theorem returns_ctor (h : grammar.Derived t) :
    Returns (ctor module t) fun c => c.name.IsOwn module := by
  refine .bind (.any _) fun _ _ => .bind (.any _) fun _ _ => .pure ⟨_, rfl, ?_⟩
  cases hrest : t.children.dropWhile (·.rule ≠ .ident) with
  | nil => simp
  | cons n rest =>
    have hmem : n ∈ t.children := List.dropWhile_subset _ (by rw [hrest]; simp)
    have hrule : n.rule = .ident := by
      have hnot := List.head?_dropWhile_not
        (fun t : Tree Rule => decide (t.rule ≠ .ident)) t.children
      rw [hrest] at hnot
      simpa using hnot
    exact not_mem_of_ident (h.children n hmem) hrule

theorem returns_fieldDecl (h : grammar.Derived t) (hrule : t.rule = .field) :
    Returns (fieldDecl module t) fun f => f.name.IsOwn module := by
  obtain ⟨n, rest, hcs, hn, -⟩ := exists_ident h (.inr hrule)
  refine .bind (.any _) fun _ _ => .bind (.any _) fun _ _ => .bind (.any _) fun _ _ =>
    .pure ⟨n.text, ?_, hn⟩
  rw [hcs]
  rfl

/-- The names of constructors and fields are qualified by the module. One case for each kind of
declaration. -/
theorem returns_declBody (h : grammar.Derived t) {n : Tree Rule} {rest : List (Tree Rule)}
    (hcs : t.children = n :: rest)
    (hparts : t.rule = .classDef → ∀ p ∈ rest, isParam p ∨ p.rule = .extends ∨ p.rule = .field) :
    Returns (declBody module t rest) fun b => b.2.OwnNames module := by
  have hderived : ∀ p ∈ rest, grammar.Derived p := fun p hp => h.children p (by simp [hcs, hp])
  refine .bind (.any _) fun tele _ => ?_
  simp only
  split
  case h_1 =>
    refine .bind (P := fun r => ∀ c ∈ r.2, c.name.IsOwn module)
      (.forIn (by simp) fun p hp r hr => ?_) fun r hr => ?_
    · have hp := hderived p (List.mem_of_mem_filter hp)
      split
      · exact .bind (returns_ctor hp) fun c hc => .pure
          (by simpa [or_imp, forall_and] using ⟨hr, hc⟩)
      · refine .bind (.mapM fun c hc => returns_ctor (hp.children c hc)) fun cs hcs => .pure ?_
        simpa [or_imp, forall_and] using ⟨hr, hcs⟩
      · exact .bind (.any _) fun _ _ => .pure hr
    · exact .pure fun c hc => hr c (by simpa using hc)
  case h_2 hclass =>
    refine .bind (P := fun r => ∀ f ∈ r.2, f.name.IsOwn module)
      (.forIn (by simp) fun p hp r hr => ?_) fun r hr => ?_
    · obtain ⟨hp, hparam⟩ := List.mem_filter.mp hp
      split
      · exact .bind (.any _) fun _ _ => .pure hr
      · next hextends =>
        have hfield : p.rule = .field := by
          obtain h | h | h := hparts hclass p hp
          · simp [h] at hparam
          · exact absurd h hextends
          · exact h
        exact .bind (returns_fieldDecl (hderived p hp) hfield) fun f hf => .pure
          (by simpa [or_imp, forall_and] using ⟨hr, hf⟩)
    · exact .pure fun f hf => hr f (by simpa using hf)
  case h_3 => exact .bind (.any _) fun _ _ => .pure trivial
  case h_4 => exact .bind (.any _) fun _ _ => .pure trivial

theorem returns_decl (h : grammar.Derived t) (hrule : t.rule.IsDecl) :
    Returns (decl module t) fun d => ∀ n ∈ d.names, n.IsOwn module := by
  obtain ⟨n, rest, hcs, hn, hparts⟩ := exists_ident h (.inl hrule)
  rw [decl, hcs]
  refine .bind (returns_declBody h hcs hparts) fun ⟨tele, body⟩ hbody => .pure ?_
  have hname : (GlobalName.qualified module n.text).IsOwn module := ⟨_, rfl, hn⟩
  cases body with
  | func => simpa [Decl.names] using hname
  | data univ ctors => simpa [Decl.names] using ⟨hname, hbody⟩
  | cls supers fields => simpa [Decl.names] using ⟨hname, hbody⟩
  | inst => simpa [Decl.names] using hname

/-- Declarations are the trees of a file that are no imports. -/
theorem returns_file (h : grammar.Derived t) (hrule : t.rule = .file) :
    Returns (file module t) fun p => ∀ d ∈ p.2, ∀ n ∈ d.names, n.IsOwn module := by
  have hroots : ∀ c ∈ t.children, c.rule = .importDecl ∨ c.rule.IsDecl := by
    refine roots_file _ ?_
    rw [← hrule]
    exact h.derives (by rw [hrule]; rfl)
  refine .bind (.mapM (Q := fun d => ∀ n ∈ d.names, n.IsOwn module) fun c hc => ?_) fun ds
    hds => .pure hds
  obtain ⟨hc, himport⟩ := List.mem_filter.mp hc
  exact returns_decl (h.children c hc) ((hroots c hc).resolve_left (by simpa using himport))

/-- The declarations of a module that has been read introduce names of the module. -/
theorem isOwn_of_read {text : String} {m : Module} (h : Module.read module text = .ok m) :
    m.name = module ∧ ∀ d ∈ m.decls, ∀ n ∈ d.names, n.IsOwn module := by
  unfold Module.read at h
  split at h
  case h_1 => simp at h
  case h_2 t ht =>
    obtain ⟨hrule, hderived⟩ : t.rule = .file ∧ grammar.Derived t := by
      have hderives := derives_of_parse ht
      cases hderives with
      | silent hs => cases hs
      | rule hr hd => exact ⟨hr, hd⟩
    have hfile : ∀ d ∈ ((Reader.file module t).run {}).1.2, ∀ n ∈ d.names, n.IsOwn module :=
      returns_file hderived hrule {}
    generalize (Reader.file module t).run {} = out at h hfile
    obtain ⟨⟨imports, decls⟩, s⟩ := out
    simp only at h
    split at h
    case h_1 => simp at h
    case h_2 =>
      obtain rfl := Except.ok.inj h
      exact ⟨rfl, hfile⟩

end Reading

end Surface

end LeveledTypes
