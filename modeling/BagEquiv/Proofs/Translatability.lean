/-
**Which terms can be translated.**

A term with summations is translated in pieces: the term with placeholders for its summations, and
then the body of each summation, with placeholders for those inside it.  Each piece has to have a
formula.  The pieces are looked at in an order, under names and at depths that depend on the
matching, but what makes a piece acceptable does not: of a tuple only its number of columns counts,
and a common tuple has as many as the variables in whose place it stands.

Main definition:

* `Translatable` — **all pieces of the term have formulas**.

Main results:

* `Vocabulary.agree_strip` — a term and the same with placeholders;
* `throughout_rename` — a term and the same with another name for a tuple;
* `throughout_iff_summations` — the first piece, and those of the summations.
-/

import BagEquiv.Proofs.TermAcceptance

set_option autoImplicit false

namespace BagEquiv

/-! ### Names -/

namespace Term

mutual

/-- The tuples that the term names, bound or not. -/
def names : Term → List String
  | .sum vars body => vars.toList.map Var.tuple ++ names body
  | .add terms => namesAll terms
  | .mul factors => namesAll factors
  | .neg term => names term
  | .squash term => names term
  | .pred _ args => namesAll args
  | .var v => [v.tuple]
  | .const _ => []
  | .table _ v => [v.tuple]
  | .func _ args => namesAll args
  | .str _ => []

def namesAll : List Term → List String
  | [] => []
  | t :: ts => names t ++ namesAll ts

end

theorem mem_namesAll {x : String} {ts : List Term} : x ∈ namesAll ts ↔ ∃ t ∈ ts, x ∈ t.names := by
  induction ts with
  | nil => simp [namesAll]
  | cons t ts ih => simp [namesAll, ih]

/-- A renaming adds the new name only. -/
theorem names_rename {source target x : String} {t : Term}
    (h : x ∈ (t.rename source target).names) : x = target ∨ x ∈ t.names := by
  have name : ∀ v : Var, x ∈ [(v.renamed source target).tuple] → x = target ∨ x ∈ [v.tuple] := by
    intro v h
    rw [List.mem_singleton, tuple_renamed, World.renamed] at h
    rw [List.mem_singleton]
    split at h
    · exact .inl h
    · exact .inr h
  induction t using Term.induct with
  | sum vars body ih =>
      rw [rename] at h
      split at h
      · exact .inr h
      · rw [names, List.mem_append] at h ⊢
        rcases h with h | h
        · exact .inr (.inl h)
        · exact (ih h).imp_right .inr
  | add ts ih | mul ts ih | pred _ ts ih | func _ ts ih =>
      rw [rename, names, renameList_eq, mem_namesAll] at h
      obtain ⟨t', ht', h⟩ := h
      obtain ⟨t, ht, rfl⟩ := List.mem_map.mp ht'
      exact (ih t ht h).imp_right fun h => mem_namesAll.mpr ⟨t, ht, h⟩
  | neg t ih | squash t ih => exact ih h
  | var v | table _ v => exact name v h
  | const | str => exact .inr h

theorem tuple_mem_names {t : Term} {b : BoundVar} (hb : b ∈ t.boundVars) :
    b.var.tuple ∈ t.names := by
  have members : ∀ {ts : List Term}, (∀ t ∈ ts, b ∈ t.boundVars → b.var.tuple ∈ t.names) →
      b ∈ ts.flatMap boundVars → b.var.tuple ∈ namesAll ts := by
    intro ts ih hb
    obtain ⟨t, ht, hb⟩ := List.mem_flatMap.mp hb
    exact mem_namesAll.mpr ⟨t, ht, ih t ht hb⟩
  induction t using Term.induct with
  | sum vars body ih =>
      rw [boundVars_sum, List.mem_append, OpenSum.mem_ofBinder] at hb
      rcases hb with ⟨hb, -⟩ | hb
      · exact List.mem_append_left _ (List.mem_map_of_mem hb)
      · exact List.mem_append_right _ (ih hb)
  | add ts ih | mul ts ih | pred _ ts ih | func _ ts ih =>
      exact members ih (flatten_nodes_forestAll ts ▸ hb)
  | neg t ih | squash t ih => exact ih hb
  | var | const | table | str => cases hb

/-- A summation of the term names tuples of the term only. -/
theorem names_of_mem_summations {t : Term} {s : VarSet × Term} (hs : s ∈ t.summations) {x : String}
    (h : x ∈ (Term.sum s.1 s.2).names) : x ∈ t.names := by
  induction t using Term.induct with
  | sum vars body _ =>
      obtain rfl := List.mem_singleton.mp hs
      exact h
  | add ts ih | mul ts ih | pred _ ts ih | func _ ts ih =>
      obtain ⟨t, ht, hs⟩ := mem_summationsAll.mp hs
      exact mem_namesAll.mpr ⟨t, ht, ih t ht hs⟩
  | neg t ih | squash t ih => exact ih hs
  | var | const | table | str => cases hs

end Term

/-- What is known of names: there are no placeholders, and summations stand for themselves. -/
def SchemaMap.vocabulary (schemas : SchemaMap) : Vocabulary where
  isCount _ := false
  arity x := (schemas.get? x).map fun s => s.columns.length
  column x := columnType (schemas.get? x)
  sums := true

/-! ### Terms that are accepted alike -/

namespace Vocabulary

variable {v w : Vocabulary} {kind : Pred} {ts us : List Term} {values : Bool}

/-- Whether two numbers of columns are known and equal. -/
def fits : Option ℕ → Option ℕ → Bool
  | some m, some n => m = n
  | _, _ => false

/-- The number of columns of the tuple that the term names, if it names one. -/
def tupleArity? (v : Vocabulary) : Term → Option (Option ℕ)
  | .var (.base x) => if v.isCount x then none else some (v.arity x)
  | _ => none

/-- Of two arguments that are tuples only the numbers of columns count. -/
theorem acceptsBinary_eq (a b : Term) :
    v.acceptsBinary kind [a, b] values =
      match v.tupleArity? a, v.tupleArity? b with
      | some m, some n => fits m n && (kind = .eq || kind = .ne)
      | _, _ => values := by
  unfold acceptsBinary tuples? tupleArity?
  split
  · next heq =>
      split at heq
      · next x y hargs =>
          obtain ⟨rfl, hb⟩ := List.cons.inj hargs
          obtain ⟨rfl, -⟩ := List.cons.inj hb
          split at heq
          · cases heq
          · next hcount =>
              cases heq
              rw [Bool.or_eq_true, not_or, Bool.not_eq_true, Bool.not_eq_true] at hcount
              simp only [hcount.1, hcount.2]
              rfl
      · cases heq
  · next heq =>
      split at heq
      · next x y hargs =>
          obtain ⟨rfl, hb⟩ := List.cons.inj hargs
          obtain ⟨rfl, -⟩ := List.cons.inj hb
          split at heq
          · next hcount =>
              rw [Bool.or_eq_true] at hcount
              rcases hcount with hcount | hcount
              · simp [hcount]
              · cases v.isCount x <;> simp [hcount]
          · cases heq
      · next hargs =>
          split
          · next m n ha hb =>
              split at ha
              · next x =>
                  split at hb
                  · next y => exact absurd rfl (hargs x y)
                  · cases hb
              · cases ha
          · rfl

/-- Two terms, each with what is known of its names, that cannot be told apart by what is accepted
nor by types. -/
structure Agree (v w : Vocabulary) (t u : Term) : Prop where
  accepts : v.accepts t = w.accepts u
  vanishes : t.vanishes = u.vanishes
  isUnit : t.isUnit = u.isUnit
  type : v.type t = w.type u
  column : t.column?.isSome = u.column?.isSome
  tuple : v.tupleArity? t = w.tupleArity? u

theorem acceptsAll_congr (h : List.Forall₂ (Agree v w) ts us) :
    v.acceptsAll ts = w.acceptsAll us := by
  induction h with
  | nil => rfl
  | cons ht _ ih => rw [acceptsAll, acceptsAll, ht.accepts, ih]

theorem vanishesAny_congr (h : List.Forall₂ (Agree v w) ts us) :
    Term.vanishesAny ts = Term.vanishesAny us := by
  induction h with
  | nil => rfl
  | cons ht _ ih => rw [Term.vanishesAny, Term.vanishesAny, ht.vanishes, ih]

theorem acceptsFactors_congr (h : List.Forall₂ (Agree v w) ts us) :
    v.acceptsFactors ts = w.acceptsFactors us := by
  induction h with
  | nil => rfl
  | cons ht _ ih => rw [acceptsFactors, acceptsFactors, ht.accepts, ht.vanishes, ih]

theorem anyReal_congr (h : List.Forall₂ (Agree v w) ts us) : v.anyReal ts = w.anyReal us := by
  induction h with
  | nil => rfl
  | cons ht _ ih => rw [anyReal, anyReal, ht.type, ih]

theorem anyRealFactor_congr (h : List.Forall₂ (Agree v w) ts us) :
    v.anyRealFactor ts = w.anyRealFactor us := by
  induction h with
  | nil => rfl
  | cons ht _ ih => rw [anyRealFactor, anyRealFactor, ht.isUnit, ht.type, ih]

theorem acceptsPred_congr (h : List.Forall₂ (Agree v w) ts us) (kind : Pred) (values : Bool) :
    v.acceptsPred kind ts values = w.acceptsPred kind us values := by
  have hbinary : ∀ {a b c d : Term} (kind : Pred), Agree v w a c → Agree v w b d →
      v.acceptsBinary kind [a, b] values = w.acceptsBinary kind [c, d] values := by
    intro a b c d kind hac hbd
    rw [acceptsBinary_eq, acceptsBinary_eq, hac.tuple, hbd.tuple]
  match h with
  | .nil | .cons _ (.cons _ (.cons _ _)) => cases kind <;> rfl
  | .cons ha .nil =>
      cases kind with
      | isNull | named => simp only [acceptsPred, ha.column]
      | eq | ne | lt | le | gt | ge => rfl
  | .cons ha (.cons hb .nil) =>
      cases kind with
      | isNull | named => rfl
      | eq | ne | lt | le | gt | ge => exact hbinary _ ha hb

theorem agree_add (h : List.Forall₂ (Agree v w) ts us) : Agree v w (.add ts) (.add us) :=
  ⟨acceptsAll_congr h, rfl, rfl, congrArg numberType (anyReal_congr h), rfl, rfl⟩

theorem agree_mul (h : List.Forall₂ (Agree v w) ts us) : Agree v w (.mul ts) (.mul us) := by
  refine ⟨acceptsFactors_congr h, vanishesAny_congr h, rfl, ?_, rfl, rfl⟩
  rw [type, type, vanishesAny_congr h, anyRealFactor_congr h]

theorem agree_pred (kind : Pred) (h : List.Forall₂ (Agree v w) ts us) :
    Agree v w (.pred kind ts) (.pred kind us) := by
  refine ⟨?_, rfl, rfl, rfl, rfl, rfl⟩
  rw [accepts, accepts, acceptsAll_congr h, acceptsPred_congr h]

theorem agree_func (name : String) (h : List.Forall₂ (Agree v w) ts us) :
    Agree v w (.func name ts) (.func name us) := by
  refine ⟨?_, rfl, rfl, ?_, rfl, rfl⟩
  · rw [accepts, accepts, acceptsAll_congr h]
  · rw [type, type, anyReal_congr h, h.length_eq]

theorem agree_neg {t u : Term} (h : Agree v w t u) : Agree v w (.neg t) (.neg u) :=
  ⟨h.accepts, rfl, rfl, rfl, rfl, rfl⟩

theorem agree_squash {t u : Term} (h : Agree v w t u) : Agree v w (.squash t) (.squash u) :=
  ⟨h.accepts, rfl, rfl, rfl, rfl, rfl⟩

theorem agree_base {x y : String} (hcount : v.isCount x = w.isCount y)
    (harity : v.arity x = w.arity y) : Agree v w (.var (.base x)) (.var (.base y)) :=
  ⟨hcount, rfl, rfl, rfl, rfl, by rw [tupleArity?, tupleArity?, hcount, harity]⟩

theorem agree_proj {x y : String} (hcolumn : v.column x = w.column y) (attr : String) :
    Agree v w (.var (.proj attr x)) (.var (.proj attr y)) :=
  ⟨rfl, rfl, rfl, congrFun hcolumn attr, rfl, rfl⟩

/-- The names are known as the same. -/
structure Same (v w : Vocabulary) (x y : String) : Prop where
  isCount : v.isCount x = w.isCount y
  arity : v.arity x = w.arity y
  column : v.column x = w.column y

/-! ### Placeholders -/

section Strip

variable {σ : Type} {fresh : σ → String × σ}

mutual

/-- A term agrees with the same in which placeholders stand for its summations. -/
theorem agree_strip (hw : w.sums = true) : ∀ (t : Term) (s : σ),
    (∀ st ∈ (t.strip fresh s).2.1, v.isCount st.name = true) → (∀ x ∈ t.names, Same v w x x) →
    Agree v w (t.strip fresh s).1 t
  | .sum vars body, s, hfound, _ => by
      have hcount := hfound _ (List.mem_singleton.mpr rfl)
      refine ⟨hcount.trans hw.symm, rfl, rfl, rfl, rfl, ?_⟩
      exact if_pos hcount
  | .add ts, s, hfound, hnames => agree_add (agree_stripList hw ts s hfound hnames)
  | .mul ts, s, hfound, hnames => agree_mul (agree_stripList hw ts s hfound hnames)
  | .neg t, s, hfound, hnames => agree_neg (agree_strip hw t s hfound hnames)
  | .squash t, s, hfound, hnames => agree_squash (agree_strip hw t s hfound hnames)
  | .pred kind ts, s, hfound, hnames => agree_pred kind (agree_stripList hw ts s hfound hnames)
  | .var (.base x), s, _, hnames =>
      have hx := hnames x (List.mem_singleton.mpr rfl)
      agree_base hx.isCount hx.arity
  | .var (.proj attr x), _, _, hnames =>
      agree_proj (hnames x (List.mem_singleton.mpr rfl)).column attr
  | .const _, _, _, _ | .table _ (.base _), _, _, _ | .table _ (.proj _ _), _, _, _
  | .str _, _, _, _ => ⟨rfl, rfl, rfl, rfl, rfl, rfl⟩
  | .func name ts, s, hfound, hnames => agree_func name (agree_stripList hw ts s hfound hnames)

theorem agree_stripList (hw : w.sums = true) : ∀ (ts : List Term) (s : σ),
    (∀ st ∈ (Term.stripList fresh ts s).2.1, v.isCount st.name = true) →
    (∀ x ∈ Term.namesAll ts, Same v w x x) →
    List.Forall₂ (Agree v w) (Term.stripList fresh ts s).1 ts
  | [], _, _, _ => .nil
  | t :: ts, s, hfound, hnames => by
      rw [Term.stripList, List.forall_mem_append] at hfound
      rw [Term.namesAll, List.forall_mem_append] at hnames
      exact .cons (agree_strip hw t s hfound.1 hnames.1)
        (agree_stripList hw ts _ hfound.2 hnames.2)

end

end Strip

/-! ### Other names -/

/-- A renaming carries what is known of names over to the names that a term has afterwards. -/
structure Carries (S T : SchemaMap) (source target : String) (names : List String) : Prop where
  kept : ∀ x ∈ names, S.get? x = T.get? x
  moved : source ∈ names → S.get? target = T.get? source

theorem Carries.mono {S T : SchemaMap} {source target : String} {xs ys : List String}
    (h : Carries S T source target ys) (hsub : ∀ x ∈ xs, x ∈ ys) : Carries S T source target xs :=
  ⟨fun x hx => h.kept x (hsub x hx), fun hx => h.moved (hsub source hx)⟩

variable {S T : SchemaMap} {source target : String}

theorem Carries.same {names : List String} (h : Carries S T source target names) {x : String}
    (hx : x ∈ names) : Same S.vocabulary T.vocabulary (World.renamed source target x) x := by
  have hget : S.get? (World.renamed source target x) = T.get? x := by
    rw [World.renamed]
    split
    · next heq => exact heq ▸ h.moved (heq ▸ hx)
    · exact h.kept x hx
  exact ⟨rfl, congrArg (Option.map fun s : Schema => s.columns.length) hget,
    congrArg columnType hget⟩

/-- A term agrees with the same in which a tuple has another name. -/
theorem agree_rename {t : Term} (h : Carries S T source target t.names) :
    Agree S.vocabulary T.vocabulary (t.rename source target) t := by
  have members : ∀ {ts : List Term}, Carries S T source target (Term.namesAll ts) →
      (∀ t ∈ ts, Carries S T source target t.names →
        Agree S.vocabulary T.vocabulary (t.rename source target) t) →
      List.Forall₂ (Agree S.vocabulary T.vocabulary) (Term.renameList source target ts) ts := by
    intro ts h ih
    rw [Term.renameList_eq, List.forall₂_map_left_iff, List.forall₂_same]
    exact fun t ht => ih t ht (h.mono fun x hx => Term.mem_namesAll.mpr ⟨t, ht, hx⟩)
  induction t using Term.induct with
  | sum vars body _ =>
      rw [Term.rename]
      split <;> exact ⟨rfl, rfl, rfl, rfl, rfl, rfl⟩
  | add ts ih => exact agree_add (members h ih)
  | mul ts ih => exact agree_mul (members h ih)
  | neg t ih => exact agree_neg (ih h)
  | squash t ih => exact agree_squash (ih h)
  | pred kind ts ih => exact agree_pred kind (members h ih)
  | func name ts ih => exact agree_func name (members h ih)
  | var v =>
      have hv := h.same (List.mem_singleton.mpr rfl)
      cases v with
      | base x =>
          rw [Term.rename, Term.renamed_base]
          exact agree_base hv.isCount hv.arity
      | proj attr x =>
          rw [Term.rename, Term.renamed_proj]
          exact agree_proj hv.column attr
  | table name v =>
      cases v with
      | base x =>
          rw [Term.rename, Term.renamed_base]
          exact ⟨rfl, rfl, rfl, rfl, rfl, rfl⟩
      | proj attr x =>
          rw [Term.rename, Term.renamed_proj]
          exact ⟨rfl, rfl, rfl, rfl, rfl, rfl⟩
  | const | str => exact ⟨rfl, rfl, rfl, rfl, rfl, rfl⟩

end Vocabulary

/-! ### All pieces of a term -/

mutual

/-- Whether the bodies of all summations pass a test. -/
def Term.everyBody (p : Term → Bool) : Term → Bool
  | .sum _ body => p body && everyBody p body
  | .add terms => everyBodyAll p terms
  | .mul factors => everyBodyAll p factors
  | .neg term => everyBody p term
  | .squash term => everyBody p term
  | .pred _ args => everyBodyAll p args
  | .var _ => true
  | .const _ => true
  | .table _ _ => true
  | .func _ args => everyBodyAll p args
  | .str _ => true

def Term.everyBodyAll (p : Term → Bool) : List Term → Bool
  | [] => true
  | t :: ts => everyBody p t && everyBodyAll p ts

end

theorem Term.everyBodyAll_eq (p : Term → Bool) (ts : List Term) :
    everyBodyAll p ts = ts.all (everyBody p) := by
  induction ts with
  | nil => rfl
  | cons t ts ih => rw [everyBodyAll, ih, List.all_cons]

/-- A test of terms, given the schemas of their tuples, that summations pass and that does not look
at the names of the tuples. -/
structure PieceTest (p : SchemaMap → Term → Bool) : Prop where
  sum : ∀ S vars body, p S (.sum vars body) = true
  rename : ∀ {S T source target t}, Vocabulary.Carries S T source target t.names →
    p S (t.rename source target) = p T t

/-- The term and the bodies of all its summations pass the test. -/
structure Throughout (p : SchemaMap → Term → Bool) (S : SchemaMap) (t : Term) : Prop where
  self : p S t = true
  bodies : t.everyBody (p S) = true

section Throughout

variable {p : SchemaMap → Term → Bool} {S T : SchemaMap} {source target : String} {t : Term}

theorem PieceTest.everyBody_rename (hp : PieceTest p)
    (h : Vocabulary.Carries S T source target t.names) :
    (t.rename source target).everyBody (p S) = t.everyBody (p T) := by
  induction t using Term.induct generalizing source target with
  | sum vars body ih =>
      have hbody := h.mono fun x hx => List.mem_append_right (vars.toList.map Var.tuple) hx
      -- Where the tuple is bound the body stays, which is what renaming a tuple to itself does.
      have hself : Vocabulary.Carries S T source source body.names :=
        ⟨hbody.kept, hbody.kept source⟩
      rw [Term.rename]
      split
      · rw [Term.everyBody, Term.everyBody, ← ih hself, ← hp.rename hself, Term.rename_self]
      · rw [Term.everyBody, Term.everyBody, ih hbody, hp.rename hbody]
  | add ts ih | mul ts ih | pred _ ts ih | func _ ts ih =>
      rw [Term.rename, Term.everyBody, Term.everyBody, Term.everyBodyAll_eq, Term.everyBodyAll_eq,
        Term.renameList_eq, List.all_map, Bool.eq_iff_iff, List.all_eq_true, List.all_eq_true]
      refine forall₂_congr fun t ht => iff_of_eq (congrArg (· = true) ?_)
      exact ih t ht (h.mono fun x hx => Term.mem_namesAll.mpr ⟨t, ht, hx⟩)
  | neg t ih | squash t ih => exact ih h
  | var | const | table | str => rfl

theorem throughout_rename (hp : PieceTest p)
    (h : Vocabulary.Carries S T source target t.names) :
    Throughout p S (t.rename source target) ↔ Throughout p T t :=
  ⟨fun ht => ⟨hp.rename h ▸ ht.self, hp.everyBody_rename h ▸ ht.bodies⟩,
    fun ht => ⟨(hp.rename h).trans ht.self, (hp.everyBody_rename h).trans ht.bodies⟩⟩

theorem throughout_congr (hp : PieceTest p) (h : ∀ x ∈ t.names, S.get? x = T.get? x) :
    Throughout p S t ↔ Throughout p T t := by
  have hrename : Throughout p S (t.rename "" "") ↔ Throughout p T t :=
    throughout_rename hp ⟨h, h ""⟩
  rwa [Term.rename_self] at hrename

theorem throughout_sum (hp : PieceTest p) (vars : VarSet) (body : Term) :
    Throughout p S (.sum vars body) ↔ Throughout p S body := by
  constructor
  · rintro ⟨-, hbodies⟩
    rw [Term.everyBody, Bool.and_eq_true] at hbodies
    exact ⟨hbodies.1, hbodies.2⟩
  · intro h
    exact ⟨hp.sum S vars body, by rw [Term.everyBody, h.self, h.bodies]; rfl⟩

theorem everyBody_iff_summations (hp : PieceTest p) : t.everyBody (p S) = true ↔
    ∀ s ∈ t.summations, Throughout p S s.2 := by
  induction t using Term.induct with
  | sum vars body _ =>
      rw [Term.summations, List.forall_mem_singleton, ← throughout_sum hp vars]
      exact ⟨fun h => ⟨hp.sum S vars body, h⟩, fun h => h.bodies⟩
  | add ts ih | mul ts ih | pred _ ts ih | func _ ts ih =>
      rw [Term.everyBody, Term.summations, Term.everyBodyAll_eq, List.all_eq_true,
        Term.summationsAll_eq, List.forall_mem_flatMap]
      exact forall₂_congr ih
  | neg t ih | squash t ih => exact ih
  | var | const | table | str => exact iff_of_true rfl fun s hs => by cases hs

/-- All pieces of a term pass a test if the first and those of its summations do. -/
theorem throughout_iff_summations (hp : PieceTest p) : Throughout p S t ↔
    p S t = true ∧ ∀ s ∈ t.summations, Throughout p S s.2 := by
  rw [← everyBody_iff_summations hp]
  exact ⟨fun h => ⟨h.self, h.bodies⟩, fun h => ⟨h.1, h.2⟩⟩

end Throughout

/-! ### Acceptance and types of pieces -/

/-- The term has a formula. -/
def SchemaMap.accepts (S : SchemaMap) (t : Term) : Bool := S.vocabulary.accepts t

theorem pieceTest_accepts : PieceTest SchemaMap.accepts :=
  ⟨fun _ _ _ => rfl, fun h => (Vocabulary.agree_rename h).accepts⟩

/-- The formula of the term is not real. -/
def SchemaMap.isDiscrete (S : SchemaMap) (t : Term) : Bool := S.vocabulary.type t ≠ .real

theorem pieceTest_isDiscrete : PieceTest SchemaMap.isDiscrete := by
  refine ⟨fun _ _ _ => rfl, fun h => ?_⟩
  unfold SchemaMap.isDiscrete
  rw [(Vocabulary.agree_rename h).type]

/-- The term and the bodies of all its summations have formulas. -/
abbrev Translatable (S : SchemaMap) (t : Term) : Prop := Throughout SchemaMap.accepts S t

end BagEquiv
