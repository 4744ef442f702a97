import ChefOs.Lib.Fuel

/-!
# Linked lists

A list of addresses that each lead to the next one, and a loop that follows it to its end.
-/

namespace Kit

variable {α β : Type*} {next next' : α → Option α} {head : Option α} {l l' : List α} {a b : α}

/-- From `head` the links pass through the list and end. -/
inductive Linked (next : α → Option α) : Option α → List α → Prop
  | nil : Linked next none []
  | cons {a : α} {l : List α} (tail : Linked next (next a) l) : Linked next (some a) (a :: l)

namespace Linked

/-- The links determine the list. -/
theorem unique (linked : Linked next head l) (linked' : Linked next head l') : l = l' := by
  induction linked generalizing l' with
  | nil =>
    cases linked'
    rfl
  | cons _ ih =>
    cases linked' with
    | cons tail => rw [ih tail]

/-- A list from an element of a list is a part of it. -/
theorem suffix (linked : Linked next head l) (mem : a ∈ l) :
    ∃ l', Linked next (some a) l' ∧ l'.length ≤ l.length := by
  induction linked with
  | nil => simp at mem
  | cons tail ih =>
    obtain rfl | mem := List.mem_cons.mp mem
    · exact ⟨_, .cons tail, le_rfl⟩
    · obtain ⟨l', linked', le⟩ := ih mem
      exact ⟨l', linked', le.trans (Nat.le_succ _)⟩

/-- A list that ends holds no element twice. -/
theorem nodup (linked : Linked next head l) : l.Nodup := by
  induction linked with
  | nil => exact List.nodup_nil
  | cons tail ih =>
    refine List.nodup_cons.mpr ⟨fun again => ?_, ih⟩
    obtain ⟨l', linked', le⟩ := tail.suffix again
    obtain rfl := linked'.unique (.cons tail)
    rw [List.length_cons] at le
    omega

theorem head_eq (linked : Linked next head l) : head = l.head? := by
  cases linked with
  | nil => rfl
  | cons tail => rfl

theorem head_mem (linked : Linked next (some a) l) : a ∈ l :=
  List.mem_of_mem_head? linked.head_eq.symm

/-- An element links to the one behind it. -/
theorem next_eq {before after : List α} (linked : Linked next head (before ++ a :: after)) :
    next a = after.head? := by
  induction before generalizing head with
  | nil =>
    cases linked with
    | cons tail => exact tail.head_eq
  | cons b before ih =>
    cases linked with
    | cons tail => exact ih tail

/-- What an element links to is an element. -/
theorem next_mem (linked : Linked next head l) (mem : a ∈ l) (link : next a = some b) :
    b ∈ l := by
  obtain ⟨before, after, rfl⟩ := List.append_of_mem mem
  have behind : b ∈ after := List.mem_of_mem_head? (linked.next_eq.symm.trans link)
  exact List.mem_append_right _ (List.mem_cons_of_mem _ behind)

/-- A list depends on the links of its own elements only. -/
theorem congr (linked : Linked next head l) (same : ∀ a ∈ l, next' a = next a) :
    Linked next' head l := by
  induction linked with
  | nil => exact .nil
  | @cons a l _ ih =>
    obtain ⟨here, later⟩ := List.forall_mem_cons.mp same
    apply Linked.cons
    rw [here]
    exact ih later

/-- When only the link of an element changes, the list still passes through the element. -/
theorem passes (linked : Linked next head l) (mem : a ∈ l)
    (same : ∀ b, b ≠ a → next' b = next b) (linked' : Linked next' head l') : a ∈ l' := by
  induction linked generalizing l' with
  | nil => simp at mem
  | @cons c l _ ih =>
    cases linked' with
    | cons tail' =>
      by_cases here : c = a
      · rw [here]
        exact List.mem_cons_self
      · rw [same c here] at tail'
        exact List.mem_cons_of_mem _ (ih (List.mem_of_ne_of_mem (Ne.symm here) mem) tail')

variable [DecidableEq α]

/-- A new element in front of the others. -/
theorem push (linked : Linked next head l) (fresh : a ∉ l) :
    Linked (Function.update next a head) (some a) (a :: l) := by
  apply Linked.cons
  rw [Function.update_self]
  exact linked.congr fun b mem => Function.update_of_ne (ne_of_mem_of_not_mem mem fresh) ..

/-- An element put in front of its own list makes a cycle. -/
theorem push_cycle (linked : Linked next head l) (again : a ∈ l) :
    ¬ Linked (Function.update next a head) (some a) l' := by
  intro linked'
  have nodup := linked'.nodup
  cases linked' with
  | cons tail =>
    rw [Function.update_self] at tail
    have mem := linked.passes again (fun b hb => Function.update_of_ne hb ..) tail
    exact (List.nodup_cons.mp nodup).1 mem

end Linked

/-- The loop that visits the elements of a list. -/
def walk (next : α → Option α) (visit : β → α → β) : ℕ → Option α → β → Option β
  | 0, _, _ => none
  | _ + 1, none, b => some b
  | fuel + 1, some a, b => walk next visit fuel (next a) (visit b a)

/-- The loop ends, after each element in turn. -/
theorem Linked.walk (linked : Linked next head l) (visit : β → α → β) (b : β) :
    Ends (fun fuel => Kit.walk next visit fuel head b) (l.foldl visit b) := by
  refine ⟨l.length + 1, fun fuel enough => ?_⟩
  obtain ⟨fuel, rfl⟩ := Nat.exists_eq_add_of_le' (Nat.le_of_add_left_le enough)
  induction linked generalizing fuel b with
  | nil => rfl
  | @cons a l _ ih =>
    rw [List.length_cons] at enough
    obtain ⟨fuel, rfl⟩ := Nat.exists_eq_add_of_le' (show 1 ≤ fuel by omega)
    exact ih (visit b a) fuel (by omega)

end Kit
