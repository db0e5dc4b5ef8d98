/-
**What a search through matchings yields.**

A search is asked again and again, for a look at the next matching or for the matching itself.
Whatever the order of the questions, the matchings it hands out are valid and different, come best
first, and are, when it ends before its limit, exactly those that can be reached from the first
one by exchanges.

The proof keeps an account of a run: what is pending is what was found and not handed out, in the
order of discovery, and whatever is one exchange away from a matching that was handed out was found.

Main definition:

* `Matching.Exchange`, `Matching.Reachable` — one exchange that leads to a valid
  matching, and any number of them.

Main result:

* `Search.contract_of_start` — **every run keeps the contract**.
-/

import Mathlib.Logic.Relation
import BagEquiv.Proofs.Binders

set_option autoImplicit false

namespace BagEquiv

/-! ### Exchanges -/

/-- A pair of members of a list is listed in one of the two orders. -/
theorem mem_pairs_or {α : Type} {xs : List α} {a b : α} (ha : a ∈ xs) (hb : b ∈ xs)
    (hab : a ≠ b) : (a, b) ∈ pairs xs ∨ (b, a) ∈ pairs xs := by
  induction xs with
  | nil => simp at ha
  | cons x xs ih =>
      simp only [pairs, List.mem_append, List.mem_map, Prod.mk.injEq]
      rcases List.mem_cons.mp ha with rfl | ha'
      · rcases List.mem_cons.mp hb with rfl | hb'
        · exact absurd rfl hab
        · exact .inl (.inl ⟨b, hb', rfl, rfl⟩)
      · rcases List.mem_cons.mp hb with rfl | hb'
        · exact .inr (.inl ⟨a, ha', rfl, rfl⟩)
        · exact (ih ha' hb').imp .inr .inr

theorem mem_of_mem_pairs {α : Type} {xs : List α} {a b : α} (h : (a, b) ∈ pairs xs) :
    a ∈ xs ∧ b ∈ xs := by
  induction xs with
  | nil => simp [pairs] at h
  | cons x xs ih =>
      simp only [pairs, List.mem_append, List.mem_map, Prod.mk.injEq] at h
      rcases h with ⟨y, hy, rfl, rfl⟩ | h
      · exact ⟨List.mem_cons_self, List.mem_cons_of_mem _ hy⟩
      · exact ⟨List.mem_cons_of_mem _ (ih h).1, List.mem_cons_of_mem _ (ih h).2⟩

namespace Matching

theorem swapIn_comm (a b : Var) (l : VarSet) : swapIn a b l = swapIn b a l := by
  unfold swapIn
  by_cases ha : a ∈ l <;> by_cases hb : b ∈ l <;> simp [ha, hb]

theorem swap_comm (m : Matching) (a b : Var) : m.swap a b = m.swap b a := by
  unfold swap
  rw [funext (swapIn_comm a b)]

/-- A valid matching arises from another by exchanging two variables of one summation that range
over the same table and are not in the same layer. -/
def Exchange (left right : Term) (m n : Matching) : Prop :=
  ∃ node ∈ nodes left right, ∃ a ∈ node, ∃ b ∈ node, a.table = b.table ∧
    m.layerOf? a.var ≠ m.layerOf? b.var ∧ n = m.swap a.var b.var ∧ n.isValid left right = true

theorem Exchange.valid {left right : Term} {m n : Matching} (h : Exchange left right m n) :
    n.isValid left right = true := by
  obtain ⟨_, _, _, _, _, _, _, _, _, hvalid⟩ := h
  exact hvalid

/-- The neighbours are the matchings one exchange away. -/
theorem mem_neighbors {left right : Term} {m n : Matching} :
    n ∈ m.neighbors left right ↔ Exchange left right m n := by
  simp only [neighbors, List.mem_filter, List.mem_map, List.mem_flatMap, Prod.exists,
    Bool.and_eq_true, decide_eq_true_eq]
  constructor
  · rintro ⟨⟨a, b, ⟨⟨node, hnode, hab⟩, htable, hlayer⟩, rfl⟩, hvalid⟩
    obtain ⟨ha, hb⟩ := mem_of_mem_pairs hab
    exact ⟨node, hnode, a, ha, b, hb, htable, hlayer, rfl, hvalid⟩
  · rintro ⟨node, hnode, a, ha, b, hb, htable, hlayer, rfl, hvalid⟩
    refine ⟨?_, hvalid⟩
    have hab : a ≠ b := fun h => hlayer (h ▸ rfl)
    rcases mem_pairs_or ha hb hab with h | h
    · exact ⟨a, b, ⟨⟨node, hnode, h⟩, htable, hlayer⟩, rfl⟩
    · exact ⟨b, a, ⟨⟨node, hnode, h⟩, htable.symm, hlayer.symm⟩, swap_comm m b.var a.var⟩

/-- A matching is reached by exchanges, all of which lead to valid matchings. -/
abbrev Reachable (left right : Term) : Matching → Matching → Prop :=
  Relation.ReflTransGen (Exchange left right)

end Matching

/-! ### Runs -/

namespace Search

open Matching

/-- What a search can be asked. -/
inductive Query where
  /-- Which matching comes next. -/
  | peek
  /-- The next matching, which is handed out. -/
  | next
deriving DecidableEq

/-- The search after a list of questions. -/
def after (s : Search) : List Query → Search
  | [] => s
  | .peek :: qs => s.after qs
  | .next :: qs =>
      match s.next? with
      | none => s.after qs
      | some (_, t) => t.after qs

/-- The matchings handed out in answer to a list of questions. -/
def results (s : Search) : List Query → List Matching
  | [] => []
  | .peek :: qs => s.results qs
  | .next :: qs =>
      match s.next? with
      | none => s.results qs
      | some (m, t) => m :: t.results qs

/-- What is promised of a run that starts with `seed`. -/
structure Contract (left right : Term) (seed : Matching) (limit : Nat) (s : Search)
    (qs : List Query) : Prop where
  /-- The first matching is the one the search started with, if there is one at all. -/
  first : (s.results qs).head? = if 0 < limit ∧ .next ∈ qs then some seed else none
  valid : ∀ m ∈ s.results qs, m.isValid left right = true
  distinct : (s.results qs).Nodup
  bounded : (s.results qs).length ≤ limit
  /-- A look at the next matching shows what is handed out next. -/
  peek_eq : (s.after qs).peek? = (s.after qs).next?.map Prod.fst
  /-- What is pending was found and not handed out, is listed in the order in which it was found,
  and has its score. -/
  pending_eq : (s.after qs).pending =
    ((s.after qs).visited.reverse.filter (· ∉ s.results qs)).map fun m => (m.score left right, m)
  /-- The matching that is handed out next has the least score of those pending, and was found
  before the others of that score. -/
  least : ∀ m t, (s.after qs).next? = some (m, t) → ∃ early late,
    (s.after qs).pending = early ++ (m.score left right, m) :: late ∧
      (∀ x ∈ early, m.score left right < x.1) ∧ ∀ x ∈ late, m.score left right ≤ x.1
  /-- There is an end, at the latest after `limit` matchings. -/
  finite : limit ≤ qs.count .next → (s.after qs).next? = none
  /-- If the end comes before the limit, all matchings that can be reached were handed out. -/
  complete : (s.after qs).next? = none → (s.results qs).length < limit →
    ∀ m, m ∈ s.results qs ↔ Reachable left right seed m

/-! ### The invariant -/

/-- The lists of a search that started with `seed` and handed out `done` so far. -/
structure Ledger (left right : Term) (seed : Matching) (limit : Nat) (s : Search)
    (done : List Matching) : Prop where
  left_eq : s.left = left
  right_eq : s.right = right
  limit_eq : s.limit = limit
  yielded_eq : s.yielded = done.length
  bounded : done.length ≤ limit
  pending_eq : s.pending =
    (s.visited.reverse.filter (· ∉ done)).map fun m => (m.score left right, m)
  visited_nodup : s.visited.Nodup
  done_nodup : done.Nodup
  done_subset : ∀ m ∈ done, m ∈ s.visited
  valid : ∀ m ∈ s.visited, m.isValid left right = true
  reachable : ∀ m ∈ s.visited, Reachable left right seed m
  seed_mem : seed ∈ s.visited

/-- What is known of a search between two questions. -/
structure Account (left right : Term) (seed : Matching) (limit : Nat) (s : Search)
    (done : List Matching) : Prop extends Ledger left right seed limit s done where
  /-- Before anything is handed out, only the first matching was found. -/
  fresh : done = [] → s.visited = [seed]
  head : ∀ m ∈ done.head?, m = seed
  /-- What is one exchange away from a matching that was handed out was found. -/
  closed : ∀ m ∈ done, ∀ n, Exchange left right m n → n ∈ s.visited

variable {left right : Term} {seed : Matching} {limit : Nat} {s t : Search}
  {done : List Matching} {m : Matching}

theorem account_start (hseed : seed.isValid left right = true) :
    Account left right seed limit (start left right seed limit) [] where
  left_eq := rfl
  right_eq := rfl
  limit_eq := rfl
  yielded_eq := rfl
  bounded := Nat.zero_le limit
  pending_eq := by simp [start]
  visited_nodup := List.nodup_singleton seed
  done_nodup := List.nodup_nil
  done_subset := by simp
  valid := by simpa [start] using hseed
  reachable := by
    intro m hm
    obtain rfl := List.mem_singleton.mp hm
    exact .refl
  seed_mem := List.mem_singleton_self seed
  fresh _ := rfl
  head := by simp
  closed := by simp

/-! ### Finding matchings -/

theorem mem_visited_discover : m ∈ (s.discover m).visited := by
  unfold discover
  split
  · assumption
  · exact List.mem_cons_self

theorem visited_subset_discover {n : Matching} (h : n ∈ s.visited) :
    n ∈ (s.discover m).visited := by
  unfold discover
  split
  · exact h
  · exact List.mem_cons_of_mem m h

theorem Ledger.discover (h : Ledger left right seed limit s done)
    (hvalid : m.isValid left right = true) (hreach : Reachable left right seed m) :
    Ledger left right seed limit (s.discover m) done := by
  unfold Search.discover
  split
  · exact h
  · next hm =>
    have hdone : m ∉ done := fun hd => hm (h.done_subset m hd)
    exact {
      left_eq := h.left_eq
      right_eq := h.right_eq
      limit_eq := h.limit_eq
      yielded_eq := h.yielded_eq
      bounded := h.bounded
      pending_eq := by
        simp [h.pending_eq, h.left_eq, h.right_eq, List.filter_append, hdone]
      visited_nodup := List.nodup_cons.mpr ⟨hm, h.visited_nodup⟩
      done_nodup := h.done_nodup
      done_subset := fun n hn => List.mem_cons_of_mem m (h.done_subset n hn)
      valid := List.forall_mem_cons.mpr ⟨hvalid, h.valid⟩
      reachable := List.forall_mem_cons.mpr ⟨hreach, h.reachable⟩
      seed_mem := List.mem_cons_of_mem m h.seed_mem }

theorem visited_subset_foldl {n : Matching} (ms : List Matching) (h : n ∈ s.visited) :
    n ∈ (ms.foldl discover s).visited := by
  induction ms generalizing s with
  | nil => exact h
  | cons m ms ih => exact ih (visited_subset_discover h)

theorem mem_visited_foldl {ms : List Matching} {n : Matching} (hn : n ∈ ms) :
    n ∈ (ms.foldl discover s).visited := by
  induction ms generalizing s with
  | nil => simp at hn
  | cons m ms ih =>
      rcases List.mem_cons.mp hn with rfl | hn
      · exact visited_subset_foldl ms mem_visited_discover
      · exact ih hn

/-- Finding any number of matchings keeps the ledger. -/
theorem Ledger.foldl_discover (h : Ledger left right seed limit s done) (ms : List Matching)
    (hms : ∀ m ∈ ms, m.isValid left right = true ∧ Reachable left right seed m) :
    Ledger left right seed limit (ms.foldl Search.discover s) done := by
  induction ms generalizing s with
  | nil => exact h
  | cons m ms ih =>
      rw [List.forall_mem_cons] at hms
      exact ih (h.discover hms.1.1 hms.1.2) hms.2

/-! ### Handing out a matching -/

theorem popLeast?_eq_none {entries : List (Nat × Matching)} :
    popLeast? entries = none ↔ entries = [] := by
  cases entries with
  | nil => simp [popLeast?]
  | cons e entries =>
      rw [popLeast?]
      split <;> simp
      split <;> simp

/-- The entry that is taken is the first of those with the least score. -/
theorem popLeast?_spec {entries others : List (Nat × Matching)} {x : Nat × Matching}
    (h : popLeast? entries = some (x, others)) :
    ∃ early late, entries = early ++ x :: late ∧ others = early ++ late ∧
      (∀ y ∈ early, x.1 < y.1) ∧ ∀ y ∈ late, x.1 ≤ y.1 := by
  induction entries generalizing x others with
  | nil => cases h
  | cons e entries ih =>
      rw [popLeast?] at h
      split at h
      · next hnone =>
        cases h
        have hnil : entries = [] := popLeast?_eq_none.mp hnone
        exact ⟨[], entries, rfl, rfl, by simp, by simp [hnil]⟩
      · next y rest hsome =>
        obtain ⟨early, late, rfl, rfl, hearly, hlate⟩ := ih hsome
        split at h
        · next hlt =>
          cases h
          exact ⟨e :: early, late, rfl, rfl, List.forall_mem_cons.mpr ⟨hlt, hearly⟩, hlate⟩
        · next hge =>
          cases h
          have hle : e.1 ≤ y.1 := Nat.le_of_not_lt hge
          refine ⟨[], _, rfl, rfl, by simp, fun z hz => ?_⟩
          rcases List.mem_append.mp hz with hz | hz
          · exact Nat.le_trans hle (Nat.le_of_lt (hearly z hz))
          · rcases List.mem_cons.mp hz with rfl | hz
            · exact hle
            · exact Nat.le_trans hle (hlate z hz)

/-- What a search does when it hands out a matching. -/
theorem next?_eq_some (h : s.next? = some (m, t)) :
    s.yielded < s.limit ∧ ∃ score others, popLeast? s.pending = some ((score, m), others) ∧
      t = (m.neighbors s.left s.right).foldl discover
        { s with pending := others, yielded := s.yielded + 1 } := by
  unfold next? at h
  split at h
  · cases h
  · next hlimit =>
    split at h
    · cases h
    · next score n others hpop =>
      cases h
      exact ⟨Nat.lt_of_not_le hlimit, score, others, hpop, rfl⟩

theorem next?_eq_none : s.next? = none ↔ s.limit ≤ s.yielded ∨ s.pending = [] := by
  unfold next?
  split
  · simp [*]
  · next hlimit =>
    split
    · next hpop => simp [popLeast?_eq_none.mp hpop]
    · next score n others hpop =>
      have : s.pending ≠ [] := by
        intro hnil
        rw [popLeast?_eq_none.mpr hnil] at hpop
        cases hpop
      simp [hlimit, this]

theorem peek?_eq (s : Search) : s.peek? = s.next?.map Prod.fst := by
  unfold peek? next?
  split
  · rfl
  · cases popLeast? s.pending with
    | none => rfl
    | some entry => rfl

/-- The matching that comes next is pending, with its score, and no better one is. -/
theorem Ledger.least (h : Ledger left right seed limit s done) (hn : s.next? = some (m, t)) :
    ∃ early late, s.pending = early ++ (m.score left right, m) :: late ∧
      (∀ x ∈ early, m.score left right < x.1) ∧ ∀ x ∈ late, m.score left right ≤ x.1 := by
  obtain ⟨_, score, others, hpop, _⟩ := next?_eq_some hn
  obtain ⟨early, late, hpending, _, hearly, hlate⟩ := popLeast?_spec hpop
  have hmem : (score, m) ∈ s.pending := by simp [hpending]
  have hscore : score = m.score left right := by
    rw [h.pending_eq, List.mem_map] at hmem
    obtain ⟨n, _, hnm⟩ := hmem
    cases hnm
    rfl
  subst hscore
  exact ⟨early, late, hpending, hearly, hlate⟩

/-- A list of different entries without one of them. -/
theorem filter_erased {xs : List Matching} (hxs : xs.Nodup) {early late : List Matching}
    (h : xs.filter (· ∉ done) = early ++ m :: late) :
    xs.filter (· ∉ done ++ [m]) = early ++ late := by
  have hnodup : (early ++ m :: late).Nodup := h ▸ hxs.filter _
  have hnot : ∀ n ∈ early ++ late, n ≠ m := by
    rintro n hn rfl
    exact (List.nodup_middle.mp hnodup).notMem hn
  calc xs.filter (· ∉ done ++ [m])
      = (xs.filter (· ∉ done)).filter (· ≠ m) := by
        rw [List.filter_filter]
        refine List.filter_congr fun n _ => ?_
        simp [and_comm]
    _ = (early ++ late).filter (· ≠ m) := by
        rw [h]
        simp [List.filter_append]
    _ = early ++ late := List.filter_eq_self.mpr fun n hn => by simpa using hnot n hn

/-- The ledger when the next matching is taken off the pending ones. -/
theorem Ledger.pop (h : Ledger left right seed limit s done) (hlimit : s.yielded < s.limit)
    {score : Nat} {others : List (Nat × Matching)}
    (hpop : popLeast? s.pending = some ((score, m), others)) :
    m ∈ s.visited ∧ m ∉ done ∧
      Ledger left right seed limit { s with pending := others, yielded := s.yielded + 1 }
        (done ++ [m]) := by
  obtain ⟨early, late, hpending, hothers, _, _⟩ := popLeast?_spec hpop
  -- The pending entries are the scored matchings of a list, and so are those around the one taken.
  rw [h.pending_eq, List.map_eq_append_iff] at hpending
  obtain ⟨ms, rest, hfilter, hms, hrest⟩ := hpending
  obtain ⟨n, ns, rfl, hn, hns⟩ := List.map_eq_cons_iff.mp hrest
  obtain ⟨-, rfl⟩ := Prod.mk.inj hn
  have hmem : n ∈ s.visited.reverse.filter (· ∉ done) := by
    rw [hfilter]
    exact List.mem_append_right ms List.mem_cons_self
  simp only [List.mem_filter, List.mem_reverse, decide_eq_true_eq] at hmem
  refine ⟨hmem.1, hmem.2, ?_⟩
  exact {
    left_eq := h.left_eq
    right_eq := h.right_eq
    limit_eq := h.limit_eq
    yielded_eq := by simp [h.yielded_eq]
    bounded := by
      rw [h.yielded_eq, h.limit_eq] at hlimit
      rw [List.length_append, List.length_singleton]
      exact hlimit
    pending_eq := by
      rw [filter_erased (List.nodup_reverse.mpr h.visited_nodup) hfilter, hothers, ← hms, ← hns,
        List.map_append]
    visited_nodup := h.visited_nodup
    done_nodup := by
      rw [List.nodup_append_comm]
      exact List.nodup_cons.mpr ⟨hmem.2, h.done_nodup⟩
    done_subset := by
      intro k hk
      rcases List.mem_append.mp hk with hk | hk
      · exact h.done_subset k hk
      · exact List.mem_singleton.mp hk ▸ hmem.1
    valid := h.valid
    reachable := h.reachable
    seed_mem := h.seed_mem }

/-- Handing out a matching keeps the account. -/
theorem Account.next (h : Account left right seed limit s done) (hn : s.next? = some (m, t)) :
    Account left right seed limit t (done ++ [m]) := by
  obtain ⟨hlimit, score, others, hpop, rfl⟩ := next?_eq_some hn
  obtain ⟨hvisited, hdone, popped⟩ := h.toLedger.pop hlimit hpop
  have hneighbors : ∀ n, n ∈ m.neighbors s.left s.right ↔ Exchange left right m n := by
    intro n
    rw [h.left_eq, h.right_eq, mem_neighbors]
  have hfound : ∀ n ∈ m.neighbors s.left s.right,
      n.isValid left right = true ∧ Reachable left right seed n := by
    intro n hn
    have hex := (hneighbors n).mp hn
    exact ⟨hex.valid, (h.reachable m hvisited).tail hex⟩
  refine { popped.foldl_discover _ hfound with fresh := ?_, head := ?_, closed := ?_ }
  · intro hnil
    simp at hnil
  · -- The first matching that is handed out is the only one that was found.
    intro n hn
    cases done with
    | nil =>
        rw [h.fresh rfl, List.mem_singleton] at hvisited
        simp only [List.nil_append, List.head?_cons, Option.mem_some_iff] at hn
        rw [← hn, hvisited]
    | cons k done => exact h.head n hn
  · intro k hk n hex
    rcases List.mem_append.mp hk with hk | hk
    · exact visited_subset_foldl _ (h.closed k hk n hex)
    · obtain rfl := List.mem_singleton.mp hk
      exact mem_visited_foldl ((hneighbors n).mpr hex)

/-! ### Whole runs -/

theorem after_of_next?_eq_none (hn : s.next? = none) (qs : List Query) : s.after qs = s := by
  induction qs with
  | nil => rfl
  | cons q qs ih =>
      cases q with
      | peek => exact ih
      | next => rw [after, hn, ih]

/-- The account of a run. -/
theorem Account.run (h : Account left right seed limit s done) (qs : List Query) :
    Account left right seed limit (s.after qs) (done ++ s.results qs) := by
  induction qs generalizing s done with
  | nil => simpa [after, results] using h
  | cons q qs ih =>
      cases q with
      | peek => exact ih h
      | next =>
          rw [after, results]
          cases hn : s.next? with
          | none => exact ih h
          | some found =>
              obtain ⟨m, t⟩ := found
              have := ih (h.next hn)
              rwa [List.append_assoc] at this

/-- The end comes when the limit is used up. -/
theorem Account.finite (h : Account left right seed limit s done) (qs : List Query)
    (hqs : limit ≤ done.length + qs.count .next) : (s.after qs).next? = none := by
  induction qs generalizing s done with
  | nil =>
      refine next?_eq_none.mpr (.inl ?_)
      rw [after, h.limit_eq, h.yielded_eq]
      simpa using hqs
  | cons q qs ih =>
      cases q with
      | peek => exact ih h (by simpa using hqs)
      | next =>
          rw [after]
          cases hn : s.next? with
          | none => rw [after_of_next?_eq_none hn, hn]
          | some found =>
              obtain ⟨m, t⟩ := found
              refine ih (h.next hn) ?_
              rw [List.count_cons_self] at hqs
              rw [List.length_append, List.length_singleton]
              omega

/-- At an end before the limit, what was handed out is what can be reached. -/
theorem Account.complete (h : Account left right seed limit s done) (hn : s.next? = none)
    (hlimit : done.length < limit) (m : Matching) :
    m ∈ done ↔ Reachable left right seed m := by
  have hempty : s.pending = [] := by
    rcases next?_eq_none.mp hn with hle | hempty
    · rw [h.limit_eq, h.yielded_eq] at hle
      omega
    · exact hempty
  have hall : ∀ n ∈ s.visited, n ∈ done := by
    intro n hvisited
    rw [h.pending_eq, List.map_eq_nil_iff, List.filter_eq_nil_iff] at hempty
    simpa using hempty n (List.mem_reverse.mpr hvisited)
  constructor
  · intro hm
    exact h.reachable m (h.done_subset m hm)
  · intro hreach
    induction hreach with
    | refl => exact hall seed h.seed_mem
    | @tail k n _ hex ih => exact hall n (h.closed k ih n hex)

/-- A search that may yield something yields its first matching first. -/
theorem results_ne_nil (h : Account left right seed limit s []) (hlimit : 0 < limit)
    {qs : List Query} (hqs : .next ∈ qs) : s.results qs ≠ [] := by
  induction qs with
  | nil => simp at hqs
  | cons q qs ih =>
      cases q with
      | peek => exact ih (by simpa using hqs)
      | next =>
          rw [results]
          cases hn : s.next? with
          | some found => simp
          | none =>
              rcases next?_eq_none.mp hn with hle | hempty
              · rw [h.limit_eq, h.yielded_eq, List.length_nil] at hle
                omega
              · rw [h.pending_eq, h.fresh rfl] at hempty
                simp at hempty

theorem results_eq_nil {qs : List Query} (hqs : .next ∉ qs) : s.results qs = [] := by
  induction qs with
  | nil => rfl
  | cons q qs ih =>
      cases q with
      | peek => exact ih (by simpa using hqs)
      | next => simp at hqs

theorem head?_results (h : Account left right seed limit s []) (qs : List Query) :
    (s.results qs).head? = if 0 < limit ∧ .next ∈ qs then some seed else none := by
  have account := h.run qs
  rw [List.nil_append] at account
  split
  · next hyes =>
    obtain ⟨m, ms, hms⟩ := List.exists_cons_of_ne_nil (results_ne_nil h hyes.1 hyes.2)
    have hm := account.head m (by simp [hms])
    rw [hms, List.head?_cons, hm]
  · next hno =>
    have hnil : s.results qs = [] := by
      by_cases hqs : .next ∈ qs
      · have hlimit : limit = 0 := by
          by_contra hne
          exact hno ⟨Nat.pos_of_ne_zero hne, hqs⟩
        exact List.eq_nil_of_length_eq_zero (Nat.le_zero.mp (hlimit ▸ account.bounded))
      · exact results_eq_nil hqs
    rw [hnil, List.head?_nil]

/-- **Every run keeps the contract.**  If the keys of the summations can be computed, so that
matchings have scores, there is a search from every valid matching, and whatever it is asked, it
hands out different valid matchings, the best ones first, up to the limit or until all that can be
reached were handed out. -/
theorem contract_of_start (hkeys : requireScores left right = .ok ())
    (hseed : seed.isValid left right = true) (limit : Nat) :
    ∃ s, Checked.start left right seed limit = .ok s ∧
      ∀ qs, Contract left right seed limit s qs := by
  refine ⟨start left right seed limit, ?_, fun qs => ?_⟩
  · rw [Checked.start, hkeys]
    rfl
  · have start : Account left right seed limit (start left right seed limit) [] :=
      account_start hseed
    have account := start.run qs
    rw [List.nil_append] at account
    exact {
      first := head?_results start qs
      valid := fun m hm => account.valid m (account.done_subset m hm)
      distinct := account.done_nodup
      bounded := account.bounded
      peek_eq := peek?_eq _
      pending_eq := account.pending_eq
      least := fun m t hn => account.least hn
      finite := fun hqs => start.finite qs (by simpa using hqs)
      complete := account.complete }

/-- The rows of two terms, matched one by one. -/
def inOrder : Matching := ⟨[.ofList [.base "x", .base "z"], .ofList [.base "y", .base "w"]]⟩

theorem contract_of_start_twoRows :
    requireScores (Term.twoRows "x" "y" .zero) (Term.twoRows "z" "w" .zero) = .ok () ∧
      inOrder.isValid (Term.twoRows "x" "y" .zero) (Term.twoRows "z" "w" .zero) = true ∧
      ∃ s, Checked.start (Term.twoRows "x" "y" .zero) (Term.twoRows "z" "w" .zero) inOrder 2 =
          .ok s ∧
        ∀ qs, Contract (Term.twoRows "x" "y" .zero) (Term.twoRows "z" "w" .zero) inOrder 2 s qs :=
  ⟨by decide, by decide, contract_of_start (by decide) (by decide) 2⟩

/-- If a key cannot be computed there is no search, not even from a valid matching. -/
theorem start_of_tooDeep :
    inOrder.isValid (Term.twoRows "x" "y" .tooDeep) (Term.twoRows "z" "w" .tooDeep) = true ∧
      Checked.start (Term.twoRows "x" "y" .tooDeep) (Term.twoRows "z" "w" .tooDeep) inOrder 2 =
        .error .overflow :=
  ⟨by decide, rfl⟩

end Search

end BagEquiv
