/-
**How a layer is resolved.**

A layer is a list of stations, which are visited one after the other: first one for each group of
summations that share a common tuple, then one for each summation without a matched variable.  At a
station the tuple is introduced and the star of the members is made, with what is inside them
resolved at the next layer.  Every summation in scope is a member of exactly one station, and below
a station there are fewer binders than in its members, so the fuel is never used up before the
summations are.

Main definition:

* `Encoder.Station`, `Encoder.stations` — the stations of a layer.

Main result:

* `Encoder.layer_succ` — **a layer visits its stations in turn**.
-/

import Mathlib.Algebra.Order.BigOperators.Group.List
import BagEquiv.Proofs.StarRows

set_option autoImplicit false

namespace BagEquiv.Encoder

/-- The summation of a member with its placeholder. -/
def Member.counted (m : Member) : Counted := (m.symbol, m.sum)

/-! ### Groups -/

/-- There are members, and they have matched variables, all with the schema of the group. -/
structure Grouped (schemas : SchemaMap) (g : Option Schema × List Member) : Prop where
  nonempty : g.2 ≠ []
  matched : ∀ m ∈ g.2, ∃ v, m.matched = some v ∧ schemas.get? v.tuple = g.1

theorem perm_addToGroup (schema : Option Schema) (m : Member)
    (gs : List (Option Schema × List Member)) :
    ((addToGroup schema m gs).flatMap Prod.snd).Perm (m :: gs.flatMap Prod.snd) := by
  induction gs with
  | nil => simp [addToGroup]
  | cons g gs ih =>
      obtain ⟨s, ms⟩ := g
      rw [addToGroup]
      split
      · simp only [List.flatMap_cons, List.append_assoc, List.singleton_append]
        exact List.perm_middle
      · simp only [List.flatMap_cons]
        exact (ih.append_left ms).trans List.perm_middle

theorem grouped_addToGroup {schemas : SchemaMap} {m : Member} {v : Var}
    (hm : m.matched = some v) {gs : List (Option Schema × List Member)}
    (h : ∀ g ∈ gs, Grouped schemas g) :
    ∀ g ∈ addToGroup (schemas.get? v.tuple) m gs, Grouped schemas g := by
  induction gs with
  | nil =>
      rw [addToGroup, List.forall_mem_singleton]
      exact ⟨List.cons_ne_nil _ _, List.forall_mem_singleton.mpr ⟨v, hm, rfl⟩⟩
  | cons g gs ih =>
      obtain ⟨s, ms⟩ := g
      rw [List.forall_mem_cons] at h
      rw [addToGroup]
      split
      · next heq =>
          rw [List.forall_mem_cons]
          refine ⟨⟨by simp, List.forall_mem_append.mpr ⟨h.1.matched, ?_⟩⟩, h.2⟩
          exact List.forall_mem_singleton.mpr ⟨v, hm, heq.symm⟩
      · exact List.forall_mem_cons.mpr ⟨h.1, ih h.2⟩

/-- The members with a matched variable are those of the groups. -/
theorem groups_ok (e : Encoder) (ms : List Member) :
    ((groups e ms).flatMap Prod.snd).Perm (ms.filter fun m => m.matched.isSome) ∧
      ∀ g ∈ groups e ms, Grouped e.schemas g := by
  have hfold : ∀ {add : List (Option Schema × List Member) → Member → _},
      (∀ gs m, m.matched = none → add gs m = gs) →
      (∀ gs m v, m.matched = some v → add gs m = addToGroup (e.schemaOf? v.tuple) m gs) →
      ∀ (ms : List Member) gs, (∀ g ∈ gs, Grouped e.schemas g) →
        ((ms.foldl add gs).flatMap Prod.snd).Perm
          (gs.flatMap Prod.snd ++ ms.filter fun m => m.matched.isSome) ∧
        ∀ g ∈ ms.foldl add gs, Grouped e.schemas g := by
    intro add hnone hsome ms
    induction ms with
    | nil => exact fun gs hgs => ⟨by simp, hgs⟩
    | cons m ms ih =>
        intro gs hgs
        rw [List.foldl_cons]
        cases hm : m.matched with
        | none =>
            rw [List.filter_cons_of_neg (by simp [hm]), hnone gs m hm]
            exact ih gs hgs
        | some v =>
            rw [List.filter_cons_of_pos (by simp [hm]), hsome gs m v hm]
            obtain ⟨hperm, hgrouped⟩ := ih _ (grouped_addToGroup hm hgs)
            refine ⟨hperm.trans ?_, hgrouped⟩
            exact ((perm_addToGroup _ m gs).append_right _).trans List.perm_middle.symm
  exact hfold (fun gs m hm => by rw [hm]) (fun gs m v hm => by rw [hm]) ms [] (by simp)

/-! ### Stations -/

/-- A star of a layer. -/
inductive Station where
  /-- Summations whose matched variables become one tuple. -/
  | common (schema : Option Schema) (members : List Member)
  /-- A summation without a matched variable. -/
  | single (member : Member)

namespace Station

def members : Station → List Member
  | .common _ members => members
  | .single member => [member]

/-- The tuples of the station are introduced. -/
def enter : Station → Encoder → String × Encoder
  | .common schema members, e => groupTuple schema (groupTable? members) e
  | .single member, e => ("", localTuples member.sum e)

/-- The matched variables of a station have its schema. -/
def Proper (schemas : SchemaMap) : Station → Prop
  | .common schema members => Grouped schemas (schema, members)
  | .single member => member.matched = none

theorem Proper.members_ne_nil {schemas : SchemaMap} {st : Station} (h : st.Proper schemas) :
    st.members ≠ [] := by
  cases st with
  | common schema ms => exact h.nonempty
  | single m => exact List.cons_ne_nil _ _

end Station

/-- The star of a station. -/
def resolve (next : List Counted → EncodeM (List Formula)) (st : Station) : EncodeM Formula := do
  star next (← step st.enter) st.members

/-- The stations of some summations. -/
def stations (e : Encoder) (ms : List Member) : List Station :=
  (groups e ms).map (fun g => .common g.1 g.2) ++
    (ms.filter fun m => m.matched.isNone).map .single

/-- The summations in scope, with the variables that are matched at a layer. -/
def membersAt (m : Matching) (depth : ℕ) (scope : List Counted) : List Member :=
  scope.map fun (u, s) => ⟨u, s, m.matchedIn? depth s⟩

variable {next : List Counted → EncodeM (List Formula)} {matching : Matching} {budget : Budget}

theorem groupStars_eq (gs : List (Option Schema × List Member)) :
    groupStars next gs =
      (gs.map fun g => Station.common g.1 g.2).mapM (resolve next) := by
  induction gs with
  | nil => rfl
  | cons g gs ih =>
      rw [List.map_cons, List.mapM_cons, ← ih, resolve, bind_assoc]
      rfl

theorem localStars_eq (ms : List Member) :
    localStars next ms = (ms.map Station.single).mapM (resolve next) := by
  induction ms with
  | nil => rfl
  | cons m ms ih =>
      rw [List.map_cons, List.mapM_cons, ← ih, resolve, bind_assoc]
      rfl

/-- A layer visits its stations in turn. -/
theorem layer_succ (fuel depth : ℕ) (scope : List Counted) :
    layer matching budget (fuel + 1) depth scope = (do
      poll budget
      let e ← get
      (stations e (membersAt matching depth scope)).mapM
        (resolve (layer matching budget fuel (depth + 1)))) := by
  rw [layer]
  refine bind_congr fun _ => bind_congr fun e => ?_
  rw [groupStars_eq, stations, List.mapM_append]
  refine bind_congr fun common => ?_
  rw [localStars_eq]
  rfl

theorem map_counted_membersAt (depth : ℕ) (scope : List Counted) :
    (membersAt matching depth scope).map Member.counted = scope := by
  rw [membersAt, List.map_map]
  exact List.map_id' _

theorem mem_of_matchedIn? {matching : Matching} {depth : ℕ} {s : OpenSum} {v : Var}
    (h : v ∈ matching.matchedIn? depth s) : v ∈ s.vars := by
  unfold Matching.matchedIn? at h
  split at h
  · exact List.mem_of_find?_eq_some h
  · cases h

theorem mem_of_mem_membersAt {depth : ℕ} {scope : List Counted} :
    ∀ m ∈ membersAt matching depth scope, ∀ v ∈ m.matched, v ∈ m.sum.vars := by
  rw [membersAt, List.forall_mem_map]
  exact fun p _ v => mem_of_matchedIn?

/-- Every member is at one station. -/
theorem stations_ok (e : Encoder) (ms : List Member) :
    ((stations e ms).flatMap Station.members).Perm ms ∧
      ∀ st ∈ stations e ms, st.Proper e.schemas := by
  obtain ⟨hperm, hgrouped⟩ := groups_ok e ms
  constructor
  · have hcommon : ((groups e ms).map fun g => Station.common g.1 g.2).flatMap Station.members =
        (groups e ms).flatMap Prod.snd := List.flatMap_map ..
    have hsingle : ((ms.filter fun m => m.matched.isNone).map Station.single).flatMap
        Station.members = ms.filter fun m => m.matched.isNone := by
      rw [List.flatMap_map]
      exact List.flatMap_singleton' _
    rw [stations, List.flatMap_append, hcommon, hsingle]
    refine (hperm.append_right _).trans ?_
    simpa using List.filter_append_perm (fun m : Member => m.matched.isSome) ms
  · rw [stations, List.forall_mem_append, List.forall_mem_map, List.forall_mem_map]
    exact ⟨hgrouped, fun m hm => Option.isNone_iff_eq_none.mp (List.mem_filter.mp hm).2⟩

/-! ### Induction over layers -/

variable {e e' : Encoder}

theorem returns_poll {budget : Budget} {a : Unit} (h : Returns (poll budget) e a e') : e' = e := by
  unfold poll at h
  split at h
  · exact (returns_pure.mp h).2
  · exact absurd h not_returns_refuse

/-- What is known of runs of layers.  `S fuel depth e₀ e scope` is known of the summations in scope
at a depth when the encoder is in the state `e`, and was in the state `e₀` when the stations of the
layer were formed, and `R fuel depth scope e fs e'` of the stars that are made of them. -/
structure LayerRule (m : Matching) (S : ℕ → ℕ → Encoder → Encoder → List Counted → Prop)
    (R : ℕ → ℕ → List Counted → Encoder → List Formula → Encoder → Prop) : Prop where
  zero : ∀ {depth e₀ e scope}, S 0 depth e₀ e scope → R 0 depth scope e [] e
  nil : ∀ {fuel depth e₀ e}, S fuel depth e₀ e [] → R fuel depth [] e [] e
  cons : ∀ {fuel depth e₀ scope scope' e f e₁ fs e'}, S fuel depth e₀ e (scope ++ scope') →
    R fuel depth scope e [f] e₁ → R fuel depth scope' e₁ fs e' →
    R fuel depth (scope ++ scope') e (f :: fs) e'
  perm : ∀ {fuel depth scope scope' e fs e'}, scope.Perm scope' →
    R fuel depth scope e fs e' → R fuel depth scope' e fs e'
  mono : ∀ {fuel depth e₀ e scope scope'}, scope'.Subperm scope → S fuel depth e₀ e scope →
    S fuel depth e₀ e scope'
  keep : ∀ {fuel depth e₀ scope scope' e f e₁}, R fuel depth scope e [f] e₁ →
    S fuel depth e₀ e scope' → S fuel depth e₀ e₁ scope'
  resolve : ∀ {fuel depth e₀ e st f e'} {next : List Counted → EncodeM (List Formula)},
    (∀ scope e fs e', S fuel (depth + 1) e e scope → Returns (next scope) e fs e' →
      R fuel (depth + 1) scope e fs e') →
    (∀ mem ∈ st.members, mem.matched = m.matchedIn? depth mem.sum) → st.Proper e₀.schemas →
    S (fuel + 1) depth e₀ e (st.members.map Member.counted) → Returns (resolve next st) e f e' →
    R (fuel + 1) depth (st.members.map Member.counted) e [f] e'

namespace LayerRule

variable {S : ℕ → ℕ → Encoder → Encoder → List Counted → Prop}
  {R : ℕ → ℕ → List Counted → Encoder → List Formula → Encoder → Prop} {fuel depth : ℕ}

/-- Stations are visited one after the other. -/
theorem stations (rule : LayerRule matching S R) {e₀ e e' : Encoder} {sts : List Station}
    {fs : List Formula}
    (hnext : ∀ scope e fs e', S fuel (depth + 1) e e scope → Returns (next scope) e fs e' →
      R fuel (depth + 1) scope e fs e')
    (hmatched : ∀ st ∈ sts, ∀ mem ∈ st.members, mem.matched = matching.matchedIn? depth mem.sum)
    (hproper : ∀ st ∈ sts, st.Proper e₀.schemas)
    (he : S (fuel + 1) depth e₀ e ((sts.flatMap Station.members).map Member.counted))
    (h : Returns (sts.mapM (Encoder.resolve next)) e fs e') :
    R (fuel + 1) depth ((sts.flatMap Station.members).map Member.counted) e fs e' := by
  induction sts generalizing e fs with
  | nil =>
      obtain ⟨rfl, rfl⟩ := returns_pure.mp h
      exact rule.nil he
  | cons st sts ih =>
      rw [List.forall_mem_cons] at hmatched hproper
      rw [List.flatMap_cons, List.map_append] at he ⊢
      rw [List.mapM_cons] at h
      obtain ⟨f, e₁, hf, h₁⟩ := returns_bind.mp h
      obtain ⟨gs, e₂, hgs, h₂⟩ := returns_bind.mp h₁
      obtain ⟨rfl, rfl⟩ := returns_pure.mp h₂
      have hfirst := rule.resolve hnext hmatched.1 hproper.1
        (rule.mono (List.sublist_append_left _ _).subperm he) hf
      exact rule.cons he hfirst (ih hmatched.2 hproper.2
        (rule.keep hfirst (rule.mono (List.sublist_append_right _ _).subperm he)) hgs)

/-- What holds of every station holds of the layers. -/
theorem layer (rule : LayerRule matching S R) (fuel : ℕ) {depth : ℕ} {scope : List Counted}
    {fs : List Formula} (he : S fuel depth e e scope)
    (h : Returns (layer matching budget fuel depth scope) e fs e') :
    R fuel depth scope e fs e' := by
  induction fuel generalizing depth scope e fs e' with
  | zero =>
      obtain ⟨_, e₁, hpoll, h₁⟩ := returns_bind.mp h
      obtain rfl := returns_poll hpoll
      obtain ⟨rfl, rfl⟩ := returns_pure.mp h₁
      exact rule.zero he
  | succ fuel ih =>
      rw [layer_succ] at h
      obtain ⟨_, e₁, hpoll, h₁⟩ := returns_bind.mp h
      obtain rfl := returns_poll hpoll
      obtain ⟨_, e₂, hget, h₂⟩ := returns_bind.mp h₁
      obtain ⟨rfl, rfl⟩ := returns_get.mp hget
      obtain ⟨hperm, hproper⟩ := stations_ok e₂ (membersAt matching depth scope)
      have hcounted := hperm.map Member.counted
      rw [map_counted_membersAt] at hcounted
      refine rule.perm hcounted (rule.stations (fun _ _ _ _ hs hr => ih hs hr)
        (fun st hst mem hmem => ?_) hproper (rule.mono hcounted.subperm he) h₂)
      have hmem := hperm.mem_iff.mp (List.mem_flatMap.mpr ⟨st, hst, hmem⟩)
      obtain ⟨p, -, rfl⟩ := List.mem_map.mp hmem
      rfl

end LayerRule

/-! ### The next layer -/

variable {e e' : Encoder} {tuple : String} {ms : List Member} {rows : List (Symbol × Formula)}
  {below : List Counted}

/-- The number of binders of the summations in scope. -/
def binders (scope : List Counted) : ℕ := (scope.map fun p => p.2.binderCount).sum

theorem clean_of_mem_stripTerm {t t' : Term} {side : Side} {found : List Counted}
    (h : Returns (stripTerm t side) e (t', found) e') : ∀ p ∈ found, Clean p.1.name := by
  intro p hp
  obtain ⟨k, -, -, heq⟩ := (stripTerm_ok h).symbols p hp
  rw [heq]
  exact Clean.append (by decide) (clean_toString k)

/-- The summations of the next layer are those inside the members. -/
theorem starRows_below (h : Returns (starRows tuple ms) e (rows, below) e') :
    below.map Prod.snd = ms.flatMap fun m => m.sum.peel m.matched tuple := by
  replace h := rowRun_of_starRows h
  induction h with
  | nil => rfl
  | cons hstrip _ _ ih =>
      rw [List.map_append, (stripTerm_ok hstrip).sums, ih, List.flatMap_cons]
      rfl

/-- The summations of the next layer have placeholders with clean names. -/
theorem clean_of_mem_below (h : Returns (starRows tuple ms) e (rows, below) e') :
    ∀ p ∈ below, Clean p.1.name := by
  replace h := rowRun_of_starRows h
  induction h with
  | nil => simp
  | cons hstrip _ _ ih => exact List.forall_mem_append.mpr ⟨clean_of_mem_stripTerm hstrip, ih⟩

/-- The rows of a star are equations for counts. -/
theorem starRows_eq (h : Returns (starRows tuple ms) e (rows, below) e') :
    ∀ r ∈ rows, ∃ f, r.2 = .eq (.sym r.1) f := by
  replace h := rowRun_of_starRows h
  induction h with
  | nil => simp
  | cons _ _ _ ih => exact List.forall_mem_cons.mpr ⟨⟨_, rfl⟩, ih⟩

theorem binders_eq (scope : List Counted) :
    binders scope = ((scope.map Prod.snd).map OpenSum.binderCount).sum := by
  rw [List.map_map]
  rfl

theorem binders_append (scope scope' : List Counted) :
    binders (scope ++ scope') = binders scope + binders scope' := by
  rw [binders, List.map_append, List.sum_append]
  rfl

/-- The summations that were taken out of a term have all its binders. -/
theorem binders_stripTerm {t t' : Term} {side : Side} {found : List Counted}
    (h : Returns (stripTerm t side) e (t', found) e') : binders found = t.binderCount := by
  rw [binders_eq, (stripTerm_ok h).sums, OpenSum.sum_binderCount_ofTerm]

/-- Below a star there are fewer binders. -/
theorem sum_binderCount_rest_lt (hms : ms ≠ []) (hvars : ∀ m ∈ ms, ∀ v ∈ m.matched, v ∈ m.sum.vars)
    (tuple : String) : (ms.map fun m => (m.rest tuple).binderCount).sum <
      ((ms.map Member.counted).map fun p => p.2.binderCount).sum := by
  rw [List.map_map]
  exact List.sum_lt_sum_of_ne_nil hms _ _ fun m hm =>
    m.sum.binderCount_rest_lt (hvars m hm) tuple

/-- Below a station there are fewer binders. -/
theorem binders_below_lt (h : Returns (starRows tuple ms) e (rows, below) e') (hms : ms ≠ [])
    (hvars : ∀ m ∈ ms, ∀ v ∈ m.matched, v ∈ m.sum.vars) :
    binders below < binders (ms.map Member.counted) := by
  have hbelow : binders below = (ms.map fun m => (m.rest tuple).binderCount).sum := by
    rw [binders_eq, starRows_below h, List.map_flatMap, List.flatMap_def, List.sum_flatten,
      List.map_map]
    refine congrArg List.sum (List.map_congr_left fun m _ => ?_)
    exact OpenSum.sum_binderCount_ofTerm _ _
  rw [hbelow]
  exact sum_binderCount_rest_lt hms hvars tuple

theorem binders_le_of_subperm {scope scope' : List Counted} (h : scope.Subperm scope') :
    binders scope ≤ binders scope' := by
  obtain ⟨l, hperm, hsub⟩ := h
  rw [binders, ← (hperm.map _).sum_eq]
  exact (hsub.map _).sum_le_sum fun _ _ => Nat.zero_le _

/-- The binders of a station are among those of the layer. -/
theorem binders_station_le {st : Station} {depth : ℕ} {scope : List Counted}
    (h : st ∈ stations e (membersAt matching depth scope)) :
    binders (st.members.map Member.counted) ≤ binders scope := by
  have hperm := (stations_ok e (membersAt matching depth scope)).1.map Member.counted
  rw [map_counted_membersAt] at hperm
  have hsub := (List.singleton_sublist.mpr h).flatMap Station.members
  rw [List.flatMap_cons, List.flatMap_nil, List.append_nil] at hsub
  exact binders_le_of_subperm ((hsub.map _).subperm.trans hperm.subperm)

/-- Every summation is a binder. -/
theorem eq_nil_of_binders {scope : List Counted} (h : binders scope = 0) : scope = [] := by
  rw [List.eq_nil_iff_forall_not_mem]
  intro p hp
  have hle := List.le_sum_of_mem (List.mem_map_of_mem (f := fun p : Counted => p.2.binderCount) hp)
  simp only [OpenSum.binderCount] at hle
  simp only [binders, OpenSum.binderCount] at h
  omega

end BagEquiv.Encoder
