import Mathlib.Data.List.AList
import Mathlib.Data.List.Count
import Mathlib.Data.List.Sort
import Mathlib.Data.List.TakeWhile

/-!
# Grouping pairs by key

A list of key/value pairs is grouped when each key stands once, in increasing order, with its
values. `Grouped` leaves the order of the values of a key open, so that the groupings of two lists
with the same pairs agree up to it. `Groups` is how a program builds a grouping: a map from keys to
lists of values that is appended to.
-/

namespace DistributedCloud

section

variable {K V : Type}

/-- The pairs of a list of groups. -/
def ungroup (groups : List (K × List V)) : List (K × V) :=
  groups.flatMap fun group => group.2.map (fun value => (group.1, value))

@[simp] theorem ungroup_nil : ungroup ([] : List (K × List V)) = [] := rfl

@[simp] theorem ungroup_cons (group : K × List V) (groups : List (K × List V)) :
    ungroup (group :: groups) = group.2.map (fun value => (group.1, value)) ++ ungroup groups := rfl

@[simp] theorem ungroup_append (groups more : List (K × List V)) :
    ungroup (groups ++ more) = ungroup groups ++ ungroup more :=
  List.flatMap_append

/-- The keys of the pairs are those of the groups, if each group has a value. -/
theorem mem_keys_ungroup {groups : List (K × List V)} (nonempty : ∀ group ∈ groups, group.2 ≠ [])
    (key : K) : key ∈ (ungroup groups).map Prod.fst ↔ key ∈ groups.map Prod.fst := by
  induction groups with
  | nil => simp
  | cons group groups ih =>
    have first : key ∈ (group.2.map fun value => (group.1, value)).map Prod.fst ↔ key = group.1 := by
      have some : group.2 ≠ [] := nonempty group (by simp)
      simp [some]
    have rest := ih (fun other listed => nonempty other (by simp [listed]))
    rw [ungroup_cons, List.map_append, List.mem_append, first, rest, List.map_cons, List.mem_cons]

end

variable {K V : Type} [LinearOrder K]

/-- The values of a key, in order. -/
def valuesOf (key : K) (pairs : List (K × V)) : List V :=
  (pairs.filter (fun pair => pair.1 = key)).map Prod.snd

@[simp] theorem valuesOf_nil (key : K) : valuesOf key ([] : List (K × V)) = [] := rfl

@[simp] theorem valuesOf_append (key : K) (pairs more : List (K × V)) :
    valuesOf key (pairs ++ more) = valuesOf key pairs ++ valuesOf key more := by
  simp [valuesOf]

theorem valuesOf_perm (key : K) {pairs pairs' : List (K × V)} (same : pairs.Perm pairs') :
    (valuesOf key pairs).Perm (valuesOf key pairs') :=
  (same.filter _).map _

theorem valuesOf_eq_nil {key : K} {pairs : List (K × V)} :
    valuesOf key pairs = [] ↔ key ∉ pairs.map Prod.fst := by
  simp only [valuesOf, List.map_eq_nil_iff, List.filter_eq_nil_iff, decide_eq_true_eq, List.mem_map,
    not_exists, not_and]

theorem count_valuesOf [DecidableEq V] (key : K) (value : V) (pairs : List (K × V)) :
    (valuesOf key pairs).count value = pairs.count (key, value) := by
  induction pairs with
  | nil => rfl
  | cons pair pairs ih =>
    obtain ⟨k, v⟩ := pair
    by_cases own : k = key
    · subst own
      simpa [valuesOf, List.count_cons] using ih
    · simpa [valuesOf, List.count_cons, own] using ih

/-- Lists with the same values for every key have the same pairs. -/
theorem perm_of_valuesOf [DecidableEq V] {pairs pairs' : List (K × V)}
    (same : ∀ key, (valuesOf key pairs).Perm (valuesOf key pairs')) : pairs.Perm pairs' := by
  rw [List.perm_iff_count]
  rintro ⟨key, value⟩
  rw [← count_valuesOf, ← count_valuesOf]
  exact (same key).count_eq value

/-! ## Groupings -/

theorem valuesOf_group (key : K) (group : K × List V) :
    valuesOf key (group.2.map fun value => (group.1, value)) =
      if group.1 = key then group.2 else [] := by
  by_cases own : group.1 = key
  · simp [valuesOf, List.filter_map, Function.comp_def, own]
  · simp [valuesOf, own]

/-- `groups` has each key of the pairs once, in increasing order, with its values. -/
structure Grouped (pairs : List (K × V)) (groups : List (K × List V)) : Prop where
  increasing : (groups.map Prod.fst).Pairwise (· < ·)
  keys : ∀ key, key ∈ groups.map Prod.fst ↔ key ∈ pairs.map Prod.fst
  values : ∀ group ∈ groups, group.2.Perm (valuesOf group.1 pairs)

namespace Grouped

variable {pairs pairs' : List (K × V)} {groups groups' : List (K × List V)}

theorem nonempty (grouped : Grouped pairs groups) : ∀ group ∈ groups, group.2 ≠ [] := by
  intro group listed empty
  have key : group.1 ∈ pairs.map Prod.fst :=
    (grouped.keys group.1).mp (List.mem_map_of_mem listed)
  have values := grouped.values group listed
  rw [empty, List.nil_perm, valuesOf_eq_nil] at values
  exact values key

theorem perm (grouped : Grouped pairs groups) (same : pairs.Perm pairs') :
    Grouped pairs' groups where
  increasing := grouped.increasing
  keys := fun key => (grouped.keys key).trans (same.map Prod.fst).mem_iff
  values := fun group listed => (grouped.values group listed).trans (valuesOf_perm group.1 same)

/-- The groups of the keys with a property are a grouping of the pairs with those keys. -/
theorem filter (grouped : Grouped pairs groups) (p : K → Bool) :
    Grouped (pairs.filter fun pair => p pair.1) (groups.filter fun group => p group.1) where
  increasing := grouped.increasing.sublist (List.filter_sublist.map Prod.fst)
  keys := by
    intro key
    have keys := grouped.keys key
    simp only [List.mem_map, Prod.exists, exists_and_right, exists_eq_right, List.mem_filter]
      at keys ⊢
    rw [keys]
  values := by
    intro group listed
    obtain ⟨listed, chosen⟩ := List.mem_filter.mp listed
    have same : valuesOf group.1 (pairs.filter fun pair => p pair.1) = valuesOf group.1 pairs := by
      unfold valuesOf
      rw [List.filter_filter]
      congr 1
      apply List.filter_congr
      intro pair _
      by_cases own : pair.1 = group.1
      · simp [own, chosen]
      · simp [own]
    rw [same]
    exact grouped.values group listed

/-- A value computed from each group without regard to the order of its values is the same for
    two groupings of the same pairs. -/
theorem map_eq {R : Type} (f : K → List V → R)
    (unordered : ∀ key values values', values.Perm values' → f key values = f key values')
    (grouped : Grouped pairs groups) (grouped' : Grouped pairs groups') :
    groups.map (fun group => f group.1 group.2) = groups'.map fun group => f group.1 group.2 := by
  have keys : groups.map Prod.fst = groups'.map Prod.fst := by
    refine List.Perm.eq_of_pairwise ?_ grouped.increasing grouped'.increasing ?_
    · intro a b _ _ below above
      exact absurd above below.asymm
    · rw [List.perm_ext_iff_of_nodup grouped.increasing.nodup grouped'.increasing.nodup]
      intro key
      rw [grouped.keys, grouped'.keys]
  have byKey : ∀ {groups : List (K × List V)}, Grouped pairs groups →
      groups.map (fun group => f group.1 group.2) =
        (groups.map Prod.fst).map fun key => f key (valuesOf key pairs) := by
    intro groups grouped
    rw [List.map_map]
    apply List.map_congr_left
    intro group listed
    exact unordered group.1 _ _ (grouped.values group listed)
  rw [byKey grouped, byKey grouped', keys]

end Grouped

/-- The values of a key stand in its group. -/
theorem valuesOf_ungroup {groups : List (K × List V)} (key : K) :
    (groups.map Prod.fst).Nodup →
      valuesOf key (ungroup groups) =
        ((groups.find? fun group => group.1 = key).map Prod.snd).getD [] := by
  induction groups with
  | nil => simp
  | cons group groups ih =>
    intro distinct
    obtain ⟨new, distinct⟩ := List.nodup_cons.mp distinct
    rw [ungroup_cons, valuesOf_append, valuesOf_group, ih distinct]
    by_cases own : group.1 = key
    · subst own
      have none : groups.find? (fun other => other.1 = group.1) = none := by
        rw [List.find?_eq_none]
        intro other listed same
        exact new (List.mem_map.mpr ⟨other, listed, of_decide_eq_true same⟩)
      simp [none]
    · simp [own]

/-- The groups have the pairs they were made from. -/
theorem Grouped.ungroup_perm [DecidableEq V] {pairs : List (K × V)} {groups : List (K × List V)}
    (grouped : Grouped pairs groups) : (ungroup groups).Perm pairs := by
  apply perm_of_valuesOf
  intro key
  rw [valuesOf_ungroup key grouped.increasing.nodup]
  cases found : groups.find? (fun group => group.1 = key) with
  | some group =>
    have own : group.1 = key := by simpa using List.find?_some found
    subst own
    exact grouped.values group (List.mem_of_find?_eq_some found)
  | none =>
    have absent : key ∉ pairs.map Prod.fst := by
      rw [← grouped.keys]
      rintro listed
      obtain ⟨group, listed, own⟩ := List.mem_map.mp listed
      have unseen := List.find?_eq_none.mp found group listed
      simp [own] at unseen
    simp [valuesOf_eq_nil.mpr absent]

/-! ## Neighbours with equal keys -/

theorem Grouped.nil : Grouped ([] : List (K × V)) [] where
  increasing := .nil
  keys := fun _ => Iff.rfl
  values := fun _ listed => (List.not_mem_nil listed).elim

/-- A new least key goes to the front. -/
theorem Grouped.cons {pairs : List (K × V)} {groups : List (K × List V)}
    (grouped : Grouped pairs groups) {key : K} {values : List V} (some : values ≠ [])
    (least : ∀ other ∈ pairs.map Prod.fst, key < other) :
    Grouped (values.map (fun value => (key, value)) ++ pairs) ((key, values) :: groups) where
  increasing := by
    refine List.Pairwise.cons ?_ grouped.increasing
    intro other listed
    exact least other ((grouped.keys other).mp listed)
  keys := by
    intro other
    have own : other ∈ (values.map fun value => (key, value)).map Prod.fst ↔ other = key := by
      simp [some]
    rw [List.map_append, List.mem_append, own, List.map_cons, List.mem_cons, grouped.keys]
  values := by
    intro group listed
    rw [valuesOf_append, valuesOf_group group.1 (key, values)]
    obtain rfl | later := List.mem_cons.mp listed
    · have absent : valuesOf key pairs = [] :=
        valuesOf_eq_nil.mpr fun other => (least key other).false
      simp [absent]
    · have above : key < group.1 :=
        least group.1 ((grouped.keys group.1).mp (List.mem_map_of_mem later))
      rw [if_neg above.ne, List.nil_append]
      exact grouped.values group later

/-- Puts neighbours with equal keys together, for at most `fuel` keys. -/
def runs : Nat → List (K × V) → List (K × List V)
  | 0, _ => []
  | _ + 1, [] => []
  | fuel + 1, (key, value) :: rest =>
    (key, value :: (rest.takeWhile fun pair => pair.1 = key).map Prod.snd) ::
      runs fuel (rest.dropWhile fun pair => pair.1 = key)

theorem lt_of_mem_dropWhile {key : K} {pairs : List (K × V)} (least : ∀ pair ∈ pairs, key ≤ pair.1)
    (ordered : pairs.Pairwise fun pair pair' => pair.1 ≤ pair'.1) :
    ∀ pair ∈ pairs.dropWhile fun pair => pair.1 = key, key < pair.1 := by
  induction pairs with
  | nil => simp
  | cons first rest ih =>
    obtain ⟨below, ordered⟩ := List.pairwise_cons.mp ordered
    by_cases own : first.1 = key
    · rw [List.dropWhile_cons_of_pos (by simpa using own)]
      exact ih (fun pair listed => least pair (List.mem_cons_of_mem first listed)) ordered
    · rw [List.dropWhile_cons_of_neg (by simpa using own)]
      have above : key < first.1 := lt_of_le_of_ne (least first List.mem_cons_self) (Ne.symm own)
      intro pair listed
      obtain rfl | later := List.mem_cons.mp listed
      · exact above
      · exact above.trans_le (below pair later)

/-- In a sorted list equal keys are neighbours. -/
theorem runs_grouped {fuel : Nat} {pairs : List (K × V)} (enough : pairs.length ≤ fuel)
    (ordered : pairs.Pairwise fun pair pair' => pair.1 ≤ pair'.1) :
    Grouped pairs (runs fuel pairs) := by
  induction fuel generalizing pairs with
  | zero =>
    obtain rfl : pairs = [] := List.length_eq_zero_iff.mp (Nat.le_zero.mp enough)
    exact .nil
  | succ fuel ih =>
    cases pairs with
    | nil => exact .nil
    | cons pair rest =>
      obtain ⟨key, value⟩ := pair
      obtain ⟨least, ordered⟩ := List.pairwise_cons.mp ordered
      have shorter : (rest.dropWhile fun pair => pair.1 = key).length ≤ fuel :=
        (List.dropWhile_suffix _).length_le.trans (Nat.le_of_succ_le_succ enough)
      have grouped := ih shorter (ordered.sublist (List.dropWhile_sublist _))
      have run : (rest.takeWhile fun pair => pair.1 = key) =
          ((rest.takeWhile fun pair => pair.1 = key).map Prod.snd).map fun value => (key, value) := by
        rw [List.map_map, List.map_congr_left (g := id), List.map_id]
        intro pair listed
        have own : pair.1 = key := by simpa using List.mem_takeWhile_imp listed
        simp [← own]
      have split : (key, value) :: rest =
          (value :: (rest.takeWhile fun pair => pair.1 = key).map Prod.snd).map
            (fun value => (key, value)) ++ rest.dropWhile fun pair => pair.1 = key := by
        rw [List.map_cons, ← run, List.cons_append, List.takeWhile_append_dropWhile]
      have above : ∀ other ∈ (rest.dropWhile fun pair => pair.1 = key).map Prod.fst, key < other := by
        intro other listed
        obtain ⟨pair, left, rfl⟩ := List.mem_map.mp listed
        exact lt_of_mem_dropWhile least ordered pair left
      have whole := grouped.cons
        (List.cons_ne_nil value ((rest.takeWhile fun pair => pair.1 = key).map Prod.snd)) above
      rw [← split] at whole
      exact whole

/-! ## Building a grouping -/

/-- A map from keys to lists of values. -/
abbrev Groups (K V : Type) : Type := AList (fun _ : K => List V)

namespace Groups

/-- The values of a key, none if it is not there. -/
def values (groups : Groups K V) (key : K) : List V := (groups.lookup key).getD []

/-- Append to the values of a key. -/
def add (groups : Groups K V) (key : K) (more : List V) : Groups K V :=
  groups.insert key (groups.values key ++ more)

/-- All entries are added one after another. -/
def addAll (groups : Groups K V) (entries : List (K × List V)) : Groups K V :=
  entries.foldl (fun groups entry => groups.add entry.1 entry.2) groups

/-- The keys in increasing order with their values. -/
def sorted (groups : Groups K V) : List (K × List V) :=
  (groups.keys.insertionSort (· ≤ ·)).map fun key => (key, groups.values key)

@[simp] theorem values_empty (key : K) : values (∅ : Groups K V) key = [] := by
  simp [values]

theorem values_add (groups : Groups K V) (entry : K × List V) (key : K) :
    (groups.add entry.1 entry.2).values key =
      groups.values key ++ valuesOf key (entry.2.map fun value => (entry.1, value)) := by
  rw [valuesOf_group]
  by_cases own : entry.1 = key
  · subst own
    simp [values, add]
  · simp [values, add, own, AList.lookup_insert_ne (Ne.symm own)]

theorem values_addAll (entries : List (K × List V)) (key : K) (groups : Groups K V) :
    (groups.addAll entries).values key = groups.values key ++ valuesOf key (ungroup entries) := by
  induction entries generalizing groups with
  | nil => simp [addAll]
  | cons entry entries ih =>
    change ((groups.add entry.1 entry.2).addAll entries).values key = _
    rw [ih, values_add, ungroup_cons, valuesOf_append, List.append_assoc]

theorem mem_addAll (entries : List (K × List V)) (key : K) (groups : Groups K V) :
    key ∈ groups.addAll entries ↔ key ∈ groups ∨ key ∈ entries.map Prod.fst := by
  induction entries generalizing groups with
  | nil => simp [addAll]
  | cons entry entries ih =>
    change key ∈ (groups.add entry.1 entry.2).addAll entries ↔ _
    rw [ih, add, AList.mem_insert, List.map_cons, List.mem_cons]
    tauto

theorem addAll_append (groups : Groups K V) (entries more : List (K × List V)) :
    groups.addAll (entries ++ more) = (groups.addAll entries).addAll more :=
  List.foldl_append

theorem sorted_keys (groups : Groups K V) :
    groups.sorted.map Prod.fst = groups.keys.insertionSort (· ≤ ·) := by
  rw [sorted, List.map_map]
  exact List.map_id _

/-- What has been appended to the empty map is a grouping, if nothing empty was appended. -/
theorem sorted_grouped {entries : List (K × List V)} (nonempty : ∀ entry ∈ entries, entry.2 ≠ []) :
    Grouped (ungroup entries) (addAll (∅ : Groups K V) entries).sorted where
  increasing := by
    rw [sorted_keys]
    have ordered := List.pairwise_insertionSort (· ≤ ·) (addAll (∅ : Groups K V) entries).keys
    have distinct : ((addAll (∅ : Groups K V) entries).keys.insertionSort (· ≤ ·)).Nodup :=
      (List.perm_insertionSort _ _).nodup_iff.mpr (AList.keys_nodup _)
    exact ordered.imp₂ (fun _ _ below other => lt_of_le_of_ne below other) distinct
  keys := by
    intro key
    rw [sorted_keys, List.mem_insertionSort, ← AList.mem_keys, mem_addAll,
      mem_keys_ungroup nonempty]
    simp
  values := by
    intro group listed
    obtain ⟨key, -, rfl⟩ := List.mem_map.mp listed
    rw [values_addAll, values_empty, List.nil_append]

end Groups

/-! ## Splitting by a number -/

/-- What is put into numbered parts is there in all. -/
theorem flatMap_filter_perm {α : Type} (part : α → Nat) (items : List α) (n : Nat) :
    ((List.range n).flatMap fun i => items.filter fun item => part item = i).Perm
      (items.filter fun item => part item < n) := by
  induction n with
  | zero => simp
  | succ n ih =>
    rw [List.range_succ, List.flatMap_append, List.flatMap_singleton]
    refine (ih.append_right _).trans ?_
    have below : items.filter (fun item => part item < n) =
        (items.filter fun item => part item < n + 1).filter fun item => part item < n := by
      rw [List.filter_filter]
      apply List.filter_congr
      intro item _
      by_cases less : part item < n
      · simp [less, Nat.lt_succ_of_lt less]
      · simp [less]
    have last : items.filter (fun item => part item = n) =
        (items.filter fun item => part item < n + 1).filter fun item => !decide (part item < n) := by
      rw [List.filter_filter]
      apply List.filter_congr
      intro item _
      by_cases less : part item < n
      · simp [less, Nat.ne_of_lt less]
      · by_cases here : part item = n
        · simp [here]
        · have above : ¬ part item < n + 1 := by omega
          simp [here, above, -not_lt]
    rw [below, last]
    exact List.filter_append_perm _ _

end DistributedCloud
