/-!
# Entries in order

A mapping whose order is content is a list of entries. Putting a value at a key keeps the place of a
key that is there and adds a new key at the end, so keys that are distinct stay distinct.

`find?` is the view of a mapping: it says what each operation does to what stands at a key.
-/

namespace FusionInspect.Entries

variable {α : Type}

/-- The value at a key. -/
def find? (key : String) : List (String × α) → Option α
  | [] => none
  | (k, v) :: rest => if k == key then some v else find? key rest

/-- Puts a value at a key: in the place of the key if it is there, at the end otherwise. -/
def put (key : String) (value : α) : List (String × α) → List (String × α)
  | [] => [(key, value)]
  | (k, v) :: rest => if k == key then (k, value) :: rest else (k, v) :: put key value rest

/-- Puts values at keys, one after the other. -/
def putAll (base added : List (String × α)) : List (String × α) :=
  added.foldl (fun found e => put e.1 e.2 found) base

/-- Entries in order, where a repeated key keeps its first place and takes its last value. -/
def collect (entries : List (String × α)) : List (String × α) :=
  putAll [] entries

/-- Takes the first entry of a key away. -/
def erase (key : String) : List (String × α) → List (String × α)
  | [] => []
  | (k, v) :: rest => if k == key then rest else (k, v) :: erase key rest

/-- What is put at a key is found there. -/
@[simp]
theorem find?_put_self (key : String) (value : α) (es : List (String × α)) :
    find? key (put key value es) = some value := by
  induction es with
  | nil => simp [put, find?]
  | cons e rest ih =>
    obtain ⟨k, v⟩ := e
    by_cases h : k = key <;> simp [put, find?, h, ih]

/-- Putting a value at a key changes nothing at the others. -/
theorem find?_put_of_ne {key other : String} (value : α) (es : List (String × α))
    (h : other ≠ key) : find? other (put key value es) = find? other es := by
  induction es with
  | nil => simp [put, find?, Ne.symm h]
  | cons e rest ih =>
    obtain ⟨k, v⟩ := e
    by_cases hk : k = key
    · subst hk
      simp [put, find?, Ne.symm h]
    · simp [put, find?, hk, ih]

/-- Putting changes what stands at its key and nothing else. -/
theorem find?_put (key other : String) (value : α) (es : List (String × α)) :
    find? other (put key value es) = if other = key then some value else find? other es := by
  by_cases h : other = key
  · subst h
    simp
  · simp [h, find?_put_of_ne value es h]

/-- Putting keeps the order of the keys; a new one comes last. -/
theorem map_fst_put (key : String) (value : α) (es : List (String × α)) :
    (put key value es).map Prod.fst =
      if key ∈ es.map Prod.fst then es.map Prod.fst else es.map Prod.fst ++ [key] := by
  induction es with
  | nil => simp [put]
  | cons e rest ih =>
    obtain ⟨k, v⟩ := e
    by_cases h : k = key
    · simp [put, h]
    · simp only [put, beq_iff_eq, h, if_false, List.map_cons, ih, List.mem_cons, Ne.symm h,
        false_or]
      split <;> rfl

/-- Erasing a key changes nothing at the others. -/
theorem find?_erase_of_ne {key other : String} (es : List (String × α)) (h : other ≠ key) :
    find? other (erase key es) = find? other es := by
  induction es with
  | nil => rfl
  | cons e rest ih =>
    obtain ⟨k, v⟩ := e
    by_cases hk : k = key
    · subst hk
      simp [erase, find?, Ne.symm h]
    · simp [erase, find?, hk, ih]

/-! ## Values put through a function -/

variable {β : Type}

/-- Changing the values keeps the keys, in their order. -/
theorem map_fst_map (f : α → β) (es : List (String × α)) :
    (es.map fun e => (e.1, f e.2)).map Prod.fst = es.map Prod.fst := by
  rw [List.map_map]
  rfl

/-- What is found after all values were changed is the change of what was found before. -/
theorem find?_map (f : α → β) (key : String) (es : List (String × α)) :
    find? key (es.map fun e => (e.1, f e.2)) = (find? key es).map f := by
  induction es with
  | nil => rfl
  | cons e rest ih =>
    obtain ⟨k, v⟩ := e
    rw [List.map_cons, find?, find?, ih]
    split <;> rfl

/-- Values can be changed before one is put or afterwards. -/
theorem put_map (f : α → β) (key : String) (value : α) (es : List (String × α)) :
    put key (f value) (es.map fun e => (e.1, f e.2)) = (put key value es).map fun e => (e.1, f e.2) := by
  induction es with
  | nil => rfl
  | cons e rest ih =>
    obtain ⟨k, v⟩ := e
    rw [List.map_cons, put, put, ih]
    split <;> rfl

/-- Values can be changed before some are put or afterwards. -/
theorem putAll_map (f : α → β) (base added : List (String × α)) :
    putAll (base.map fun e => (e.1, f e.2)) (added.map fun e => (e.1, f e.2)) =
      (putAll base added).map fun e => (e.1, f e.2) := by
  induction added generalizing base with
  | nil => rfl
  | cons e rest ih =>
    obtain ⟨k, v⟩ := e
    change putAll (put k (f v) (base.map fun e => (e.1, f e.2))) (rest.map fun e => (e.1, f e.2)) = _
    rw [put_map, ih]
    rfl

theorem collect_map (f : α → β) (es : List (String × α)) :
    collect (es.map fun e => (e.1, f e.2)) = (collect es).map fun e => (e.1, f e.2) :=
  putAll_map f [] es

/-! ## Distinct keys

With distinct keys an entry is found exactly when it is there, so the order of entries does not
matter to `find?`. -/

/-- What is found is an entry. -/
theorem mem_of_find? {key : String} {value : α} {es : List (String × α)}
    (h : find? key es = some value) : (key, value) ∈ es := by
  induction es with
  | nil => cases h
  | cons e rest ih =>
    obtain ⟨k, v⟩ := e
    by_cases hk : k = key
    · simp only [find?, beq_iff_eq, hk, if_true, Option.some.injEq] at h
      simp [hk, h]
    · simp only [find?, beq_iff_eq, hk, if_false] at h
      exact List.mem_cons_of_mem _ (ih h)

/-- Nothing is found exactly at what is no key. -/
theorem find?_eq_none_iff {key : String} {es : List (String × α)} :
    find? key es = none ↔ key ∉ es.map Prod.fst := by
  induction es with
  | nil => simp [find?]
  | cons e rest ih =>
    obtain ⟨k, v⟩ := e
    by_cases hk : k = key
    · simp [find?, hk]
    · simp [find?, hk, ih, Ne.symm hk]

/-- If no key comes twice, each entry is found. -/
theorem find?_eq_some_iff_mem {key : String} {value : α} {es : List (String × α)}
    (hnd : (es.map Prod.fst).Nodup) : find? key es = some value ↔ (key, value) ∈ es := by
  refine ⟨mem_of_find?, fun hmem => ?_⟩
  induction es with
  | nil => cases hmem
  | cons e rest ih =>
    obtain ⟨k, v⟩ := e
    rw [List.map_cons, List.nodup_cons] at hnd
    rcases List.mem_cons.mp hmem with heq | hrest
    · cases heq
      simp [find?]
    · have hk : k ≠ key := by
        rintro rfl
        exact hnd.1 (List.mem_map.mpr ⟨(k, value), hrest, rfl⟩)
      simp only [find?, beq_iff_eq, hk, if_false]
      exact ih hnd.2 hrest

/-- The order of entries with distinct keys does not matter to what is found. -/
theorem find?_eq_of_perm {es fs : List (String × α)} (h : es.Perm fs)
    (hnd : (es.map Prod.fst).Nodup) (key : String) : find? key es = find? key fs := by
  have hnd' : (fs.map Prod.fst).Nodup := (h.map Prod.fst).nodup hnd
  cases hf : find? key fs with
  | none =>
    rw [find?_eq_none_iff] at hf ⊢
    exact fun hmem => hf ((h.map Prod.fst).mem_iff.mp hmem)
  | some v =>
    rw [find?_eq_some_iff_mem hnd'] at hf
    exact (find?_eq_some_iff_mem hnd).mpr (h.mem_iff.mpr hf)

/-- Entries with the same distinct keys in the same order are equal if the same is found in them. -/
theorem eq_of_find?_eq {es fs : List (String × α)} (hkeys : es.map Prod.fst = fs.map Prod.fst)
    (hnd : (es.map Prod.fst).Nodup) (h : ∀ key, find? key es = find? key fs) : es = fs := by
  induction es generalizing fs with
  | nil => exact (List.map_eq_nil_iff.mp hkeys.symm).symm
  | cons e rest ih =>
    obtain ⟨k, v⟩ := e
    cases fs with
    | nil => cases hkeys
    | cons f more =>
      obtain ⟨k', v'⟩ := f
      obtain ⟨rfl, hrest⟩ := List.cons.inj hkeys
      rw [List.map_cons, List.nodup_cons] at hnd
      have hv : v = v' := by simpa [find?] using h k
      have hmore : rest = more := by
        refine ih hrest hnd.2 fun key => ?_
        by_cases hk : k = key
        · subst hk
          have hmem : k ∉ rest.map Prod.fst := hnd.1
          rw [find?_eq_none_iff.mpr hmem, find?_eq_none_iff.mpr (hrest ▸ hmem)]
        · simpa [find?, hk] using h key
      rw [hv, hmore]

/-- Putting a value makes no key come twice. -/
theorem nodup_put {es : List (String × α)} (key : String) (value : α)
    (hnd : (es.map Prod.fst).Nodup) : ((put key value es).map Prod.fst).Nodup := by
  rw [map_fst_put]
  split
  · exact hnd
  · next hmem => exact List.nodup_append.mpr ⟨hnd, by simp, by
      intro a ha b hb
      rw [List.mem_singleton] at hb
      exact fun hab => hmem (hb ▸ hab ▸ ha)⟩

/-- After a value was put, each entry is that one or one from before. -/
theorem mem_put {key : String} {value : α} {es : List (String × α)} {e : String × α}
    (h : e ∈ put key value es) : e = (key, value) ∨ e ∈ es := by
  induction es with
  | nil => exact .inl (List.mem_singleton.mp h)
  | cons d rest ih =>
    obtain ⟨k, v⟩ := d
    by_cases hk : k = key
    · simp only [put, beq_iff_eq, hk, if_true, List.mem_cons] at h
      rcases h with rfl | h
      · exact .inl rfl
      · exact .inr (List.mem_cons_of_mem _ h)
    · simp only [put, beq_iff_eq, hk, if_false, List.mem_cons] at h
      rcases h with rfl | h
      · exact .inr List.mem_cons_self
      · exact (ih h).imp_right (List.mem_cons_of_mem _)

/-- Erasing leaves the other entries in their order. -/
theorem erase_sublist (key : String) (es : List (String × α)) : (erase key es).Sublist es := by
  induction es with
  | nil => exact .slnil
  | cons e rest ih =>
    obtain ⟨k, v⟩ := e
    rw [erase]
    split
    · exact List.sublist_cons_self _ _
    · exact ih.cons_cons _

/-- If no key comes twice, an erased one is gone. -/
theorem find?_erase_self {es : List (String × α)} (hnd : (es.map Prod.fst).Nodup) (key : String) :
    find? key (erase key es) = none := by
  induction es with
  | nil => rfl
  | cons e rest ih =>
    obtain ⟨k, v⟩ := e
    rw [List.map_cons, List.nodup_cons] at hnd
    by_cases hk : k = key
    · subst hk
      simpa [erase] using find?_eq_none_iff.mpr hnd.1
    · simp [erase, find?, hk, ih hnd.2]

/-- If no key comes twice, erasing one leaves out all entries at it. -/
theorem erase_eq_filter {es : List (String × α)} (hnd : (es.map Prod.fst).Nodup) (key : String) :
    erase key es = es.filter fun e => e.1 != key := by
  induction es with
  | nil => rfl
  | cons e rest ih =>
    obtain ⟨k, v⟩ := e
    rw [List.map_cons, List.nodup_cons] at hnd
    by_cases hk : k = key
    · subst hk
      have hrest : (rest.filter fun e => e.1 != k) = rest := by
        refine List.filter_eq_self.mpr fun e he => bne_iff_ne.mpr fun hkey => hnd.1 ?_
        exact hkey ▸ List.mem_map.mpr ⟨e, he, rfl⟩
      simp [erase, hrest]
    · simp [erase, hk, ih hnd.2]

/-! ## Collected entries -/

/-- A new key goes to the end. -/
theorem put_of_not_mem {key : String} {es : List (String × α)} (h : key ∉ es.map Prod.fst)
    (value : α) : put key value es = es ++ [(key, value)] := by
  induction es with
  | nil => rfl
  | cons e rest ih =>
    obtain ⟨k, v⟩ := e
    rw [List.map_cons, List.mem_cons, not_or] at h
    simp [put, Ne.symm h.1, ih h.2]

/-- Entries at new keys are appended. -/
theorem putAll_of_nodup {base added : List (String × α)}
    (hnd : ((base ++ added).map Prod.fst).Nodup) : putAll base added = base ++ added := by
  induction added generalizing base with
  | nil => exact (List.append_nil base).symm
  | cons e rest ih =>
    have hfresh : e.1 ∉ base.map Prod.fst := by
      rw [List.map_append, List.nodup_append] at hnd
      exact fun hmem => hnd.2.2 e.1 hmem e.1 List.mem_cons_self rfl
    have happend : base ++ e :: rest = base ++ [e] ++ rest := by simp
    rw [happend] at hnd ⊢
    rw [putAll, List.foldl_cons, put_of_not_mem hfresh]
    exact ih hnd

/-- Entries with distinct keys are collected as they are. -/
theorem collect_of_nodup {es : List (String × α)} (hnd : (es.map Prod.fst).Nodup) :
    collect es = es :=
  putAll_of_nodup hnd

/-- Putting some values makes no key come twice. -/
theorem nodup_putAll {base : List (String × α)} (hnd : (base.map Prod.fst).Nodup)
    (added : List (String × α)) : ((putAll base added).map Prod.fst).Nodup := by
  induction added generalizing base with
  | nil => exact hnd
  | cons e rest ih => exact ih (nodup_put e.1 e.2 hnd)

theorem nodup_collect (es : List (String × α)) : ((collect es).map Prod.fst).Nodup :=
  @nodup_putAll α [] List.nodup_nil es

/-- After some values were put, each entry is one of them or one from before. -/
theorem mem_putAll {base added : List (String × α)} {e : String × α}
    (h : e ∈ putAll base added) : e ∈ base ∨ e ∈ added := by
  induction added generalizing base with
  | nil => exact .inl h
  | cons d rest ih =>
    rcases ih h with h | h
    · rcases mem_put h with rfl | h
      · exact .inr List.mem_cons_self
      · exact .inl h
    · exact .inr (List.mem_cons_of_mem _ h)

/-- What is collected was given. -/
theorem mem_of_mem_collect {es : List (String × α)} {e : String × α} (h : e ∈ collect es) : e ∈ es :=
  (mem_putAll h).resolve_left List.not_mem_nil

/-- What comes first is found first. -/
theorem find?_append (key : String) (es fs : List (String × α)) :
    find? key (es ++ fs) = (find? key es).or (find? key fs) := by
  induction es with
  | nil => rfl
  | cons e rest ih =>
    rw [List.cons_append, find?, find?, ih]
    split <;> rfl

/-- The last of the values that are put at a key is found there, and else what was there before. -/
theorem find?_putAll (key : String) (base added : List (String × α)) :
    find? key (putAll base added) = (find? key added.reverse).or (find? key base) := by
  induction added generalizing base with
  | nil => rfl
  | cons e rest ih =>
    obtain ⟨k, v⟩ := e
    change find? key (putAll (put k v base) rest) = _
    rw [ih, List.reverse_cons, find?_append, find?_put, find?, find?]
    by_cases h : key = k
    · simp [h]
    · simp [h, Ne.symm h]

/-- What is found is the first entry at its key. -/
theorem find?_eq_some_iff_split {key : String} {value : α} {es : List (String × α)} :
    find? key es = some value ↔
      ∃ front back, es = front ++ (key, value) :: back ∧ key ∉ front.map Prod.fst := by
  constructor
  · intro h
    induction es with
    | nil => cases h
    | cons e rest ih =>
      obtain ⟨k, v⟩ := e
      by_cases hk : k = key
      · subst hk
        have hv : v = value := by simpa [find?] using h
        exact ⟨[], rest, by rw [hv]; rfl, List.not_mem_nil⟩
      · rw [find?, if_neg (by simpa using hk)] at h
        obtain ⟨front, back, rfl, hfront⟩ := ih h
        exact ⟨(k, v) :: front, back, rfl, by simp [Ne.symm hk, hfront]⟩
  · rintro ⟨front, back, rfl, hfront⟩
    rw [find?_append, find?_eq_none_iff.mpr hfront]
    simp [find?]

/-- What is collected at a key is what was given there last. -/
theorem find?_collect_eq_some_iff {key : String} {value : α} {es : List (String × α)} :
    find? key (collect es) = some value ↔
      ∃ earlier later, es = earlier ++ (key, value) :: later ∧ key ∉ later.map Prod.fst := by
  rw [collect, find?_putAll, find?, Option.or_none, find?_eq_some_iff_split]
  constructor
  · rintro ⟨front, back, hsplit, hfront⟩
    refine ⟨back.reverse, front.reverse, ?_, by simpa using hfront⟩
    rw [← List.reverse_reverse es, hsplit]
    simp
  · rintro ⟨earlier, later, rfl, hlater⟩
    exact ⟨later.reverse, earlier.reverse, by simp, by simpa using hlater⟩

/-- Collecting adds no key and loses none. -/
theorem find?_collect_eq_none_iff {key : String} {es : List (String × α)} :
    find? key (collect es) = none ↔ key ∉ es.map Prod.fst := by
  rw [collect, find?_putAll, find?, Option.or_none, find?_eq_none_iff]
  simp

end FusionInspect.Entries
