import RiotApps.L2Routing.Node

namespace RiotApps.L2Routing

def Route.Dedicated (myId dst : Eui64) (r : Route) : Prop := r.id = myId ∧ r.dst = some dst

def Route.Default (myId : Eui64) (r : Route) : Prop := r.id = myId ∧ r.dst = none

instance (myId dst : Eui64) (r : Route) : Decidable (r.Dedicated myId dst) :=
  inferInstanceAs (Decidable (_ ∧ _))

instance (myId : Eui64) (r : Route) : Decidable (r.Default myId) :=
  inferInstanceAs (Decidable (_ ∧ _))

def defaultRoute (myId : Eui64) (table : List Route) : Option Eui64 :=
  (table.filter (·.Default myId)).getLast?.map Route.nextHop

def bestRoute (myId dst : Eui64) (table : List Route) : Option Eui64 :=
  match table.find? (·.Dedicated myId dst) with
  | some r => some r.nextHop
  | none => defaultRoute myId table

def DedicatedFirst (myId dst : Eui64) (table : List Route) : Prop :=
  ∀ r ∈ table.takeWhile (¬ ·.Dedicated myId dst), ¬ r.Default myId

instance (myId dst : Eui64) (table : List Route) : Decidable (DedicatedFirst myId dst table) :=
  inferInstanceAs (Decidable (∀ _ ∈ _, _))

variable {atNull myId dst : Eui64} {next : Option Eui64} {r : Route} {table : List Route}
  {l : Lookup}

def bestFrom (myId dst : Eui64) (next : Option Eui64) (table : List Route) : Option Eui64 :=
  match table.find? (·.Dedicated myId dst) with
  | some r => some r.nextHop
  | none => (defaultRoute myId table).or next

theorem bestFrom_none : bestFrom myId dst none table = bestRoute myId dst table := by
  rw [bestFrom, bestRoute, Option.or_none]

theorem bestFrom_cons_dedicated (h : r.Dedicated myId dst) :
    bestFrom myId dst next (r :: table) = some r.nextHop := by
  rw [bestFrom, List.find?_cons_of_pos (by simpa using h)]

theorem defaultRoute_cons (r : Route) (table : List Route) :
    defaultRoute myId (r :: table) =
      (defaultRoute myId table).or (if r.Default myId then some r.nextHop else none) := by
  unfold defaultRoute
  by_cases h : r.Default myId
  · rw [List.filter_cons_of_pos (by simpa using h), List.getLast?_cons, if_pos h]
    cases (table.filter (·.Default myId)).getLast? <;> rfl
  · rw [List.filter_cons_of_neg (by simpa using h), if_neg h, Option.or_none]

theorem bestFrom_cons (h : ¬ r.Dedicated myId dst) :
    bestFrom myId dst next (r :: table) =
      bestFrom myId dst (if r.Default myId then some r.nextHop else next) table := by
  rw [bestFrom, bestFrom, List.find?_cons_of_neg (by simpa using h), defaultRoute_cons,
    Option.or_assoc]
  split
  · rfl
  · split <;> rfl

theorem dedicatedFirst_cons (h : ¬ r.Dedicated myId dst) :
    DedicatedFirst myId dst (r :: table) ↔
      ¬ r.Default myId ∧ DedicatedFirst myId dst table := by
  rw [DedicatedFirst, List.takeWhile_cons_of_pos (by simpa using h), List.forall_mem_cons]
  rfl

theorem routeLookup_cons_dedicated (h : r.Dedicated myId dst) :
    routeLookup atNull myId dst l (r :: table) =
      ⟨some r.nextHop, l.compared ++ [some dst]⟩ := by
  rw [routeLookup, if_pos h.1.symm]
  dsimp only
  rw [h.2, Option.getD_some, if_pos rfl]

theorem routeLookup_eq_bestFrom (h : dst ≠ atNull ∨ DedicatedFirst myId dst table) :
    (routeLookup atNull myId dst l table).next = bestFrom myId dst l.next table := by
  induction table generalizing l with
  | nil => obtain ⟨next, compared⟩ := l; cases next <;> rfl
  | cons r rest ih =>
    by_cases hded : r.Dedicated myId dst
    · rw [routeLookup_cons_dedicated hded, bestFrom_cons_dedicated hded]
    · rw [dedicatedFirst_cons hded] at h
      rw [bestFrom_cons hded, routeLookup]
      by_cases hid : myId = r.id
      · rw [if_pos hid]
        dsimp only
        cases hdst : r.dst with
        | some d =>
          have hne : dst ≠ d := fun hd => hded ⟨hid.symm, hd ▸ hdst⟩
          have hdefault : ¬ r.Default myId := fun hd => nomatch hdst.symm.trans hd.2
          rw [Option.getD_some, if_neg hne, if_neg hdefault]
          exact ih (h.imp_right And.right)
        | none =>
          have hdefault : r.Default myId := ⟨hid.symm, hdst⟩
          have hne : dst ≠ atNull := h.resolve_right fun hfirst => hfirst.1 hdefault
          rw [Option.getD_none, if_neg hne, if_pos hdefault]
          exact ih (.inl hne)
      · rw [if_neg hid, if_neg fun hd => hid hd.1.symm]
        exact ih (h.imp_right And.right)

theorem routeLookup_eq_bestRoute (h : dst ≠ atNull) :
    (routeLookup atNull myId dst ⟨none, []⟩ table).next = bestRoute myId dst table := by
  rw [routeLookup_eq_bestFrom (.inl h), bestFrom_none]

theorem none_notMem_compared_iff (atNull : Eui64) :
    none ∉ (routeLookup atNull myId dst l table).compared ↔
      none ∉ l.compared ∧ DedicatedFirst myId dst table := by
  induction table generalizing l with
  | nil => simp [routeLookup, DedicatedFirst]
  | cons r rest ih =>
    by_cases hded : r.Dedicated myId dst
    · rw [routeLookup_cons_dedicated hded]
      simp [DedicatedFirst, hded]
    · rw [dedicatedFirst_cons hded, routeLookup]
      by_cases hid : myId = r.id
      · rw [if_pos hid]
        dsimp only
        cases hdst : r.dst with
        | some d =>
          have hne : dst ≠ d := fun hd => hded ⟨hid.symm, hd ▸ hdst⟩
          have hdefault : ¬ r.Default myId := fun hd => nomatch hdst.symm.trans hd.2
          rw [Option.getD_some, if_neg hne, and_iff_right hdefault]
          exact ih.trans (by simp)
        | none =>
          have hdefault : r.Default myId := ⟨hid.symm, hdst⟩
          refine iff_of_false ?_ fun h => h.2.1 hdefault
          split
          · simp
          · exact fun h => (ih.1 h).1 (by simp)
      · have hdefault : ¬ r.Default myId := fun hd => hid hd.1.symm
        rw [if_neg hid, and_iff_right hdefault]
        exact ih

/-- A `NULL` destination is compared before it is looked at. -/
theorem routeLookup_right_iff (atNull myId dst : Eui64) (table : List Route) :
    (routeLookup atNull myId dst ⟨none, []⟩ table).next = bestRoute myId dst table ∧
        none ∉ (routeLookup atNull myId dst ⟨none, []⟩ table).compared ↔
      DedicatedFirst myId dst table := by
  rw [none_notMem_compared_iff atNull, and_iff_right List.not_mem_nil]
  refine and_iff_right_of_imp fun h => ?_
  rw [routeLookup_eq_bestFrom (.inr h), bestFrom_none]

theorem routeLookup_compares_null :
    none ∈ (routeLookup 0 node08 node01 ⟨none, []⟩ routingTable).compared ∧
      (routeLookup node01 node02 node01 ⟨none, []⟩
        [⟨node02, none, node03⟩, ⟨node02, none, node04⟩]).next = some node03 ∧
      bestRoute node02 node01 [⟨node02, none, node03⟩, ⟨node02, none, node04⟩] = some node04 := by
  decide

end RiotApps.L2Routing
