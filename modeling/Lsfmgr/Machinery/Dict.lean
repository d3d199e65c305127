import Mathlib

/-!
# Machinery/Dict — an insertion-ordered dictionary

A dictionary is its list of entries in insertion order, and carries the proof that no key occurs
twice.  Setting a key that is present rewrites its entry in place; a new key goes to the end;
erasing keeps the order of the rest.  Reading after a write is `get?_set` and `get?_erase`, and the
order of the keys is `keys_set_of_mem`, `keys_set_of_not_mem` and `keys_erase`.
-/

namespace Machinery

/-- Entries in insertion order, no key twice. -/
structure Dict (κ : Type*) (ν : Type*) where
  entries : List (κ × ν)
  nodup : (entries.map Prod.fst).Nodup
  deriving DecidableEq

namespace Dict

variable {κ ν : Type*}

theorem ext_entries {d e : Dict κ ν} (h : d.entries = e.entries) : d = e := by
  cases d; cases e; cases h; rfl

/-- The dictionary without entries. -/
def empty : Dict κ ν := ⟨[], List.nodup_nil⟩

instance : EmptyCollection (Dict κ ν) := ⟨empty⟩
instance : Inhabited (Dict κ ν) := ⟨empty⟩

def keys (d : Dict κ ν) : List κ := d.entries.map Prod.fst

def values (d : Dict κ ν) : List ν := d.entries.map Prod.snd

theorem nodup_keys (d : Dict κ ν) : d.keys.Nodup := d.nodup

@[simp] theorem keys_empty : (∅ : Dict κ ν).keys = [] := rfl

@[simp] theorem values_empty : (∅ : Dict κ ν).values = [] := rfl

/-- Every value rewritten by `f`, which may look at its key; keys and order stay. -/
def mapValues {ν' : Type*} (d : Dict κ ν) (f : κ → ν → ν') : Dict κ ν' where
  entries := d.entries.map fun e => (e.1, f e.1 e.2)
  nodup := by simpa [Function.comp_def] using d.nodup

section Lookup

variable [DecidableEq κ]

/-- The value at `k`, if there is one. -/
def get? (d : Dict κ ν) (k : κ) : Option ν := d.entries.lookup k

/-- `d[k] = v`: in place when `k` is present, at the end otherwise. -/
def set (d : Dict κ ν) (k : κ) (v : ν) : Dict κ ν where
  entries :=
    if k ∈ d.keys then d.entries.map fun e => if e.1 = k then (k, v) else e
    else d.entries ++ [(k, v)]
  nodup := by
    split
    case isTrue =>
      have : (d.entries.map fun e => if e.1 = k then (k, v) else e).map Prod.fst = d.keys := by
        rw [List.map_map, keys]
        refine List.map_congr_left fun e _ => ?_
        by_cases he : e.1 = k <;> simp [he]
      rw [this]
      exact d.nodup
    case isFalse hk =>
      rw [List.map_append, List.nodup_append]
      refine ⟨d.nodup, by simp, fun a ha b hb => ?_⟩
      obtain rfl : b = k := by simpa using hb
      rintro rfl
      exact hk ha

/-- The dictionary without the key `k`. -/
def erase (d : Dict κ ν) (k : κ) : Dict κ ν where
  entries := d.entries.filter fun e => e.1 ≠ k
  nodup := (List.filter_sublist.map Prod.fst).nodup d.nodup

/-- The entries that pass a test, in their order. -/
def filter (d : Dict κ ν) (p : κ → ν → Bool) : Dict κ ν where
  entries := d.entries.filter fun e => p e.1 e.2
  nodup := (List.filter_sublist.map Prod.fst).nodup d.nodup

@[simp] theorem get?_empty (k : κ) : (∅ : Dict κ ν).get? k = none := rfl

private theorem lookup_eq_none {l : List (κ × ν)} {k : κ} :
    l.lookup k = none ↔ k ∉ l.map Prod.fst := by
  induction l with
  | nil => simp
  | cons e l ih =>
    rw [List.lookup_cons]
    by_cases h : k = e.1 <;> simp [h, ih, beq_eq_false_iff_ne.mpr, Ne]

private theorem mem_of_lookup {l : List (κ × ν)} {k : κ} {v : ν} (h : l.lookup k = some v) :
    (k, v) ∈ l := by
  induction l with
  | nil => simp at h
  | cons e l ih =>
    rw [List.lookup_cons] at h
    by_cases hk : k = e.1
    · obtain ⟨a, b⟩ := e
      simp_all
    · rw [beq_eq_false_iff_ne.mpr hk] at h
      exact List.mem_cons_of_mem _ (ih h)

private theorem lookup_of_mem {l : List (κ × ν)} (hl : (l.map Prod.fst).Nodup) {k : κ} {v : ν}
    (h : (k, v) ∈ l) : l.lookup k = some v := by
  induction l with
  | nil => cases h
  | cons e l ih =>
    rw [List.map_cons, List.nodup_cons] at hl
    rw [List.lookup_cons]
    rcases List.mem_cons.mp h with rfl | h
    · simp
    · have hne : k ≠ e.1 := fun hk => hl.1 (hk ▸ List.mem_map_of_mem (f := Prod.fst) h)
      rw [beq_eq_false_iff_ne.mpr hne]
      exact ih hl.2 h

theorem get?_eq_none {d : Dict κ ν} {k : κ} : d.get? k = none ↔ k ∉ d.keys := lookup_eq_none

theorem get?_eq_some {d : Dict κ ν} {k : κ} {v : ν} : d.get? k = some v ↔ (k, v) ∈ d.entries :=
  ⟨mem_of_lookup, lookup_of_mem d.nodup⟩

theorem mem_keys {d : Dict κ ν} {k : κ} : k ∈ d.keys ↔ ∃ v, d.get? k = some v := by
  rw [← not_iff_not, ← get?_eq_none, not_exists, Option.eq_none_iff_forall_ne_some]

theorem mem_values {d : Dict κ ν} {v : ν} : v ∈ d.values ↔ ∃ k, d.get? k = some v := by
  simp [values, get?_eq_some]

/-- **Reading after a write.** -/
theorem get?_set (d : Dict κ ν) (k k' : κ) (v : ν) :
    (d.set k v).get? k' = if k' = k then some v else d.get? k' := by
  by_cases hk : k ∈ d.keys
  · have he : (d.set k v).entries = d.entries.map fun e => if e.1 = k then (k, v) else e := by
      simp [set, hk]
    split
    case isTrue h =>
      subst h
      obtain ⟨w, hw⟩ := mem_keys.mp hk
      rw [get?_eq_some, he, List.mem_map]
      exact ⟨(k', w), get?_eq_some.mp hw, by simp⟩
    case isFalse h =>
      ext w
      rw [get?_eq_some, get?_eq_some, he, List.mem_map]
      constructor
      · rintro ⟨e, hmem, heq⟩
        by_cases hek : e.1 = k
        · rw [if_pos hek] at heq
          exact absurd (congrArg Prod.fst heq).symm h
        · rw [if_neg hek] at heq
          rwa [← heq]
      · exact fun hmem => ⟨(k', w), hmem, by simp [h]⟩
  · have he : (d.set k v).entries = d.entries ++ [(k, v)] := by simp [set, hk]
    split
    case isTrue h =>
      subst h
      rw [get?_eq_some, he]
      simp
    case isFalse h =>
      ext w
      rw [get?_eq_some, get?_eq_some, he]
      simp [h]

@[simp] theorem get?_set_self (d : Dict κ ν) (k : κ) (v : ν) : (d.set k v).get? k = some v := by
  rw [get?_set, if_pos rfl]

theorem get?_set_of_ne (d : Dict κ ν) {k k' : κ} (v : ν) (h : k' ≠ k) :
    (d.set k v).get? k' = d.get? k' := by rw [get?_set, if_neg h]

/-- **Reading after an erasure.** -/
theorem get?_erase (d : Dict κ ν) (k k' : κ) :
    (d.erase k).get? k' = if k' = k then none else d.get? k' := by
  ext w
  rw [get?_eq_some]
  split
  case isTrue h => simp [erase, h]
  case isFalse h => simp [erase, h, get?_eq_some]

@[simp] theorem get?_erase_self (d : Dict κ ν) (k : κ) : (d.erase k).get? k = none := by
  rw [get?_erase, if_pos rfl]

theorem get?_erase_of_ne (d : Dict κ ν) {k k' : κ} (h : k' ≠ k) :
    (d.erase k).get? k' = d.get? k' := by rw [get?_erase, if_neg h]

/-- **Reading after a list of erasures.** -/
theorem get?_foldl_erase (d : Dict κ ν) (ks : List κ) (k : κ) :
    (ks.foldl erase d).get? k = if k ∈ ks then none else d.get? k := by
  induction ks generalizing d with
  | nil => simp
  | cons k' ks ih =>
    rw [List.foldl_cons, ih, get?_erase]
    by_cases hk : k ∈ ks <;> by_cases hk' : k = k' <;> simp [hk, hk']

/-- **Reading after a filter.** -/
theorem get?_filter (d : Dict κ ν) (p : κ → ν → Bool) (k : κ) :
    (d.filter p).get? k = (d.get? k).filter (p k) := by
  ext w
  rw [get?_eq_some, Option.filter_eq_some_iff, get?_eq_some]
  simp [filter]

/-- **Reading after a list of writes**: the last write to the key counts. -/
theorem get?_foldl_set {α : Type*} (key : α → κ) (val : α → ν) (l : List α) (d : Dict κ ν) (k : κ) :
    (l.foldl (fun d a => d.set (key a) (val a)) d).get? k
      = ((l.reverse.find? (key · = k)).map val).or (d.get? k) := by
  induction l generalizing d with
  | nil => rfl
  | cons a l ih =>
    rw [List.foldl_cons, ih, get?_set, List.reverse_cons, List.find?_append]
    rcases l.reverse.find? (key · = k) with _ | b
    · by_cases h : key a = k
      · simp [h]
      · simp [h, Ne.symm h]
    · rfl

omit [DecidableEq κ] in
theorem keys_mapValues {ν' : Type*} (d : Dict κ ν) (f : κ → ν → ν') :
    (d.mapValues f).keys = d.keys := by
  rw [keys, mapValues, List.map_map, keys]
  rfl

/-- **Reading a rewritten value.** -/
theorem get?_mapValues {ν' : Type*} (d : Dict κ ν) (f : κ → ν → ν') (k : κ) :
    (d.mapValues f).get? k = (d.get? k).map (f k) := by
  rcases hk : d.get? k with _ | v
  · exact get?_eq_none.mpr (by rw [keys_mapValues]; exact get?_eq_none.mp hk)
  · exact get?_eq_some.mpr (List.mem_map.mpr ⟨(k, v), get?_eq_some.mp hk, rfl⟩)

/-- Writing to a present key rewrites its entry in place. -/
theorem entries_set_of_mem {d : Dict κ ν} {k : κ} (v : ν) (hk : k ∈ d.keys) :
    (d.set k v).entries = d.entries.map fun e => if e.1 = k then (k, v) else e := by
  simp [set, hk]

/-- Rewriting the values after a write is writing the rewritten value. -/
theorem mapValues_set {ν' : Type*} (d : Dict κ ν) (f : κ → ν → ν') (k : κ) (v : ν) :
    (d.set k v).mapValues f = (d.mapValues f).set k (f k v) := by
  refine ext_entries ?_
  change (d.set k v).entries.map (fun e => (e.1, f e.1 e.2)) = _
  by_cases hk : k ∈ d.keys
  · rw [entries_set_of_mem v hk, entries_set_of_mem _ (by rwa [keys_mapValues])]
    change _ = (d.entries.map fun e => (e.1, f e.1 e.2)).map _
    rw [List.map_map, List.map_map]
    refine List.map_congr_left fun e _ => ?_
    by_cases he : e.1 = k <;> simp [he]
  · have he : (d.set k v).entries = d.entries ++ [(k, v)] := by simp [set, hk]
    have he' : ((d.mapValues f).set k (f k v)).entries
        = (d.mapValues f).entries ++ [(k, f k v)] := by
      simp [set, keys_mapValues, hk]
    rw [he, he', List.map_append]
    rfl

/-- Writing to a present key keeps the keys and their order. -/
theorem keys_set_of_mem {d : Dict κ ν} {k : κ} (v : ν) (hk : k ∈ d.keys) :
    (d.set k v).keys = d.keys := by
  have he : (d.set k v).entries = d.entries.map fun e => if e.1 = k then (k, v) else e := by
    simp [set, hk]
  rw [keys, he, List.map_map, keys]
  refine List.map_congr_left fun e _ => ?_
  by_cases h : e.1 = k <;> simp [h]

/-- A new key goes to the end. -/
theorem keys_set_of_not_mem {d : Dict κ ν} {k : κ} (v : ν) (hk : k ∉ d.keys) :
    (d.set k v).keys = d.keys ++ [k] := by
  have he : (d.set k v).entries = d.entries ++ [(k, v)] := by simp [set, hk]
  rw [keys, he, List.map_append, keys]
  rfl

theorem mem_keys_set {d : Dict κ ν} {k k' : κ} {v : ν} :
    k' ∈ (d.set k v).keys ↔ k' = k ∨ k' ∈ d.keys := by
  rw [mem_keys, get?_set, mem_keys]
  by_cases h : k' = k <;> simp [h]

/-- **The order after a list of writes to distinct keys**: the old keys stay where they are, and the
new ones follow in the order they were written. -/
theorem keys_foldl_set {α : Type*} (key : α → κ) (val : α → ν) {l : List α}
    (hl : (l.map key).Nodup) (d : Dict κ ν) :
    (l.foldl (fun d a => d.set (key a) (val a)) d).keys
      = d.keys ++ (l.map key).filter (· ∉ d.keys) := by
  induction l generalizing d with
  | nil => simp
  | cons a l ih =>
    rw [List.map_cons, List.nodup_cons] at hl
    rw [List.foldl_cons, ih hl.2, List.map_cons]
    by_cases hk : key a ∈ d.keys
    · rw [keys_set_of_mem _ hk, List.filter_cons_of_neg (by simpa using hk)]
    · have hrest :
          (l.map key).filter (· ∉ d.keys ++ [key a]) = (l.map key).filter (· ∉ d.keys) := by
        refine List.filter_congr fun k hmem => ?_
        have hne : k ≠ key a := fun heq => hl.1 (heq ▸ hmem)
        simp [hne]
      rw [keys_set_of_not_mem _ hk, hrest, List.filter_cons_of_pos (by simpa using hk),
        List.append_assoc, List.singleton_append]

theorem keys_erase (d : Dict κ ν) (k : κ) : (d.erase k).keys = d.keys.filter (· ≠ k) := by
  rw [keys, erase, keys, List.filter_map]
  rfl

/-- A new entry goes to the end. -/
theorem entries_set_of_not_mem {d : Dict κ ν} {k : κ} (v : ν) (hk : k ∉ d.keys) :
    (d.set k v).entries = d.entries ++ [(k, v)] := by simp [set, hk]

/-- Erasing a key takes out its one entry. -/
theorem entries_erase_perm {d : Dict κ ν} {k : κ} {v : ν} (h : d.get? k = some v) :
    (d.entries).Perm ((k, v) :: (d.erase k).entries) := by
  obtain ⟨l₁, l₂, hl⟩ := List.append_of_mem (get?_eq_some.mp h)
  have hnd := d.nodup
  rw [hl, List.map_append, List.map_cons, List.nodup_append, List.nodup_cons] at hnd
  obtain ⟨-, ⟨hk₂, -⟩, hk₁⟩ := hnd
  have hf₁ : l₁.filter (fun e => e.1 ≠ k) = l₁ := List.filter_eq_self.mpr fun e he =>
    decide_eq_true (hk₁ e.1 (List.mem_map_of_mem he) k List.mem_cons_self)
  have hf₂ : l₂.filter (fun e => e.1 ≠ k) = l₂ := List.filter_eq_self.mpr fun e he =>
    decide_eq_true fun hek => hk₂ (List.mem_map.mpr ⟨e, he, hek⟩)
  have he : (d.erase k).entries = l₁ ++ l₂ := by
    change d.entries.filter (fun e => e.1 ≠ k) = _
    rw [hl, List.filter_append, List.filter_cons_of_neg (by simp), hf₁, hf₂]
  rw [he, hl]
  exact List.perm_middle

theorem entries_set_erase (d : Dict κ ν) (k : κ) (v : ν) :
    ((d.set k v).erase k).entries = (d.erase k).entries := by
  change (d.set k v).entries.filter (fun e => e.1 ≠ k) = d.entries.filter fun e => e.1 ≠ k
  by_cases hk : k ∈ d.keys
  · have he : (d.set k v).entries = d.entries.map fun e => if e.1 = k then (k, v) else e := by
      simp [set, hk]
    rw [he, List.filter_map]
    have hp : ((fun e : κ × ν => decide (e.1 ≠ k)) ∘ fun e => if e.1 = k then (k, v) else e)
        = fun e => decide (e.1 ≠ k) := by
      funext e
      by_cases h : e.1 = k <;> simp [h]
    rw [hp]
    refine (List.map_congr_left fun e he => ?_).trans (List.map_id _)
    have h := of_decide_eq_true (List.mem_filter.mp he).2
    simp [h]
  · rw [entries_set_of_not_mem v hk, List.filter_append]
    simp

/-- Writing a key: its entry, and the entries of the other keys. -/
theorem entries_set_perm (d : Dict κ ν) (k : κ) (v : ν) :
    (d.set k v).entries.Perm ((k, v) :: (d.erase k).entries) := by
  rw [← entries_set_erase d k v]
  exact entries_erase_perm (get?_set_self d k v)

/-- A count over the values after a write: the new value, and the values of the other keys. -/
theorem countP_values_set (d : Dict κ ν) (k : κ) (v : ν) (p : ν → Bool) :
    (d.set k v).values.countP p = (d.erase k).values.countP p + (p v).toNat := by
  rw [values, ((entries_set_perm d k v).map Prod.snd).countP_eq, List.map_cons, List.countP_cons]
  cases p v <;> rfl

theorem erase_of_not_mem {d : Dict κ ν} {k : κ} (h : k ∉ d.keys) : d.erase k = d :=
  ext_entries (List.filter_eq_self.mpr fun _ he =>
    decide_eq_true fun hk => h (hk ▸ List.mem_map_of_mem he))

/-- An erasure takes one value out of the count. -/
theorem countP_values_erase {d : Dict κ ν} {k : κ} {w : ν} (h : d.get? k = some w) (p : ν → Bool) :
    d.values.countP p = (d.erase k).values.countP p + (p w).toNat := by
  rw [values, ((entries_erase_perm h).map Prod.snd).countP_eq, List.map_cons, List.countP_cons]
  cases p w <;> simp [values]

/-- A sum over the values after a write: the new value, and the values of the other keys. -/
theorem sum_values_set {M : Type*} [AddCommMonoid M] (d : Dict κ M) (k : κ) (v : M) :
    (d.set k v).values.sum = v + (d.erase k).values.sum := by
  rw [values, ((entries_set_perm d k v).map Prod.snd).sum_eq, List.map_cons, List.sum_cons]
  rfl

theorem sum_values_eq {M : Type*} [AddCommMonoid M] (d : Dict κ M) (k : κ) :
    d.values.sum = (d.get? k).getD 0 + (d.erase k).values.sum := by
  rcases h : d.get? k with _ | v
  · rw [erase_of_not_mem (get?_eq_none.mp h), Option.getD_none, zero_add]
  · rw [values, ((entries_erase_perm h).map Prod.snd).sum_eq, List.map_cons, List.sum_cons]
    rfl

theorem mem_keys_erase {d : Dict κ ν} {k k' : κ} :
    k' ∈ (d.erase k).keys ↔ k' ≠ k ∧ k' ∈ d.keys := by
  rw [keys_erase, List.mem_filter]
  simp [and_comm]

end Lookup

end Dict

/-! ## Lists with distinct keys -/

/-- Picking from a list with distinct keys keeps the keys distinct. -/
theorem nodup_map_filterMap {α β κ : Type*} {f : α → Option β} {key : α → κ} {key' : β → κ}
    (hf : ∀ a b, f a = some b → key' b = key a) {l : List α} (hl : (l.map key).Nodup) :
    ((l.filterMap f).map key').Nodup := by
  have hsub : ((l.filterMap f).map key').Sublist (l.map key) := by
    induction l with
    | nil => simp
    | cons a l ih =>
      have ih := ih (List.nodup_cons.mp hl).2
      rcases hfa : f a with _ | b
      · rw [List.filterMap_cons_none hfa]
        exact ih.cons _
      · rw [List.filterMap_cons_some hfa, List.map_cons, List.map_cons, hf a b hfa]
        exact ih.cons_cons _
  exact hsub.nodup hl

/-- An element is found by its key. -/
theorem find?_eq_some_of_nodup {α κ : Type*} [DecidableEq κ] (key : α → κ) {l : List α}
    (hl : (l.map key).Nodup) {a : α} (ha : a ∈ l) : l.find? (key · = key a) = some a := by
  rcases hf : l.find? (key · = key a) with _ | b
  · rw [List.find?_eq_none] at hf
    exact absurd (decide_eq_true rfl) (hf a ha)
  · have hkey : key b = key a := by simpa using List.find?_some hf
    exact congrArg some (List.inj_on_of_nodup_map hl (List.mem_of_find?_eq_some hf) ha hkey)

end Machinery
