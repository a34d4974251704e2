import FusionInspect.Json.Document

/-!
# Values that are read have distinct keys

A text may write a key of an object twice, but no value that is read has one twice: the reader
collects the entries of every object. So for values that are read it does not matter whether the first
or the last entry of a key is looked at (`Json.distinctKeys_of_parse`).

What a reader can yield is stated by a postcondition, and there is one lemma for each reader that a
value is read by.
-/

namespace FusionInspect.Json

/-- No object in the value has a key twice. -/
inductive DistinctKeys : Json → Prop where
  | null : DistinctKeys .null
  | bool (b : Bool) : DistinctKeys (.bool b)
  | number (n : Number) : DistinctKeys (.number n)
  | string (s : String) : DistinctKeys (.string s)
  | array {items : List Json} : (∀ v ∈ items, DistinctKeys v) → DistinctKeys (.array items)
  | object {entries : List (String × Json)} : (entries.map Prod.fst).Nodup →
      (∀ e ∈ entries, DistinctKeys e.2) → DistinctKeys (.object entries)

namespace Reader

variable {α β : Type} {p : α → Prop} {q : β → Prop}

/-! ## Postconditions -/

/-- Whatever the reader yields has the property. -/
def Yields (p : α → Prop) (r : Reader α) : Prop :=
  ∀ c d a, r c = .ok (a, d) → p a

theorem yields_pure {a : α} (ha : p a) : Yields p (pure a) := by
  intro c d b h
  cases h
  exact ha

theorem yields_failHere (cause : Cause) : Yields p (failHere cause) := by
  intro c d a h
  cases h

/-- What a first reader yields is what a second one may suppose. -/
theorem Yields.bind {r : Reader α} {f : α → Reader β} (hr : Yields p r)
    (hf : ∀ a, p a → Yields q (f a)) : Yields q (r >>= f) := by
  intro c d b h
  cases hread : r c with
  | error e =>
    rw [show (r >>= f) c = r c >>= fun x => f x.1 x.2 from rfl, hread] at h
    cases h
  | ok x =>
    rw [show (r >>= f) c = r c >>= fun x => f x.1 x.2 from rfl, hread] at h
    exact hf x.1 (hr c x.2 x.1 hread) x.2 d b h

/-- What is read first need not matter to what is yielded in the end. -/
theorem yields_bind (r : Reader α) {f : α → Reader β} (hf : ∀ a, Yields q (f a)) :
    Yields q (r >>= f) :=
  Yields.bind (p := fun _ => True) (fun _ _ _ _ => trivial) fun a _ => hf a

/-! ## Lists and objects -/

/-- The loop over the items of a list keeps what all items read so far have. -/
theorem yields_itemsLoop {item : Reader α} (hitem : Yields p item) : ∀ (fuel : Nat) (first : Bool)
    {read : List α}, (∀ a ∈ read, p a) → Yields (∀ a ∈ ·, p a) (itemsLoop item fuel first read)
  | 0, _, _, _ => yields_failHere _
  | fuel + 1, first, read, hread => by
    unfold itemsLoop
    refine yields_bind _ fun more => ?_
    split
    · refine hitem.bind fun a ha => ?_
      exact yields_itemsLoop hitem fuel false (List.forall_mem_cons.mpr ⟨ha, hread⟩)
    · refine yields_bind _ fun _ => yields_pure fun a ha => ?_
      exact hread a (List.mem_reverse.mp ha)

/-- Each item of a list has what its reader yields. -/
theorem yields_items {item : Reader α} (hitem : Yields p item) : Yields (∀ a ∈ ·, p a) (items item) :=
  yields_bind _ fun _ => yields_itemsLoop hitem _ true fun _ ha => absurd ha List.not_mem_nil

/-- The loop over the entries of an object keeps what all values read so far have. -/
theorem yields_entriesLoop {value : Reader α} (hvalue : Yields p value) : ∀ (fuel : Nat)
    (first : Bool) {read : List (String × α)}, (∀ e ∈ read, p e.2) →
      Yields (∀ e ∈ ·, p e.2) (entriesLoop value fuel first read)
  | 0, _, _, _ => yields_failHere _
  | fuel + 1, first, read, hread => by
    unfold entriesLoop
    refine yields_bind _ fun more => ?_
    split
    · refine yields_bind _ fun _ => yields_bind _ fun key => yields_bind _ fun _ => ?_
      refine hvalue.bind fun a ha => ?_
      exact yields_entriesLoop hvalue fuel false (List.forall_mem_cons.mpr ⟨ha, hread⟩)
    · refine yields_bind _ fun _ => yields_pure fun e he => ?_
      exact hread e (List.mem_reverse.mp he)

/-- Each value of an object has what its reader yields. -/
theorem yields_entries {value : Reader α} (hvalue : Yields p value) :
    Yields (∀ e ∈ ·, p e.2) (entries value) :=
  yields_bind _ fun _ => yields_entriesLoop hvalue _ true fun _ he => absurd he List.not_mem_nil

/-! ## Values -/

/-- A value that is neither a list nor an object has no keys at all. -/
theorem yields_plainValue (c : Char) : Yields DistinctKeys (plainValue c) := by
  unfold plainValue
  split
  · exact yields_bind _ fun _ => yields_bind _ fun _ => yields_pure .null
  split
  · exact yields_bind _ fun _ => yields_bind _ fun _ => yields_pure (.bool true)
  split
  · exact yields_bind _ fun _ => yields_bind _ fun _ => yields_pure (.bool false)
  split
  · exact yields_bind _ fun _ => yields_bind _ fun n => yields_pure (.number n)
  split
  · exact yields_bind _ fun n => yields_pure (.number n)
  split
  · exact yields_bind _ fun _ => yields_bind _ fun s => yields_pure (.string s)
  · exact yields_failHere _

/-- Every value that is read has distinct keys, by induction on how deep values may still nest. -/
theorem yields_value : ∀ room : Nat, Yields DistinctKeys (value room)
  | 0 => by
    unfold value
    refine yields_bind _ fun next => ?_
    split
    · exact yields_failHere _
    · split
      · exact yields_failHere _
      · exact yields_plainValue _
  | room + 1 => by
    unfold value
    refine yields_bind _ fun next => ?_
    split
    · exact yields_failHere _
    split
    · refine yields_bind _ fun _ => (yields_items (yields_value room)).bind fun items hitems => ?_
      exact yields_pure (.array hitems)
    split
    · refine yields_bind _ fun _ => (yields_entries (yields_value room)).bind fun entries hentries => ?_
      exact yields_pure (.object (Entries.nodup_collect entries)
        fun e he => hentries e (Entries.mem_of_mem_collect he))
    · exact yields_plainValue _

/-- So has every document. -/
theorem yields_document : Yields DistinctKeys document :=
  (yields_value depthLimit).bind fun _ hv => yields_bind _ fun _ => yields_pure hv

end Reader

/-- **No value that is read has a key twice.** -/
theorem distinctKeys_of_parse {text : String} {v : Json} (h : parse text = .ok v) : v.DistinctKeys := by
  unfold parse Reader.run at h
  split at h
  · next hread =>
    cases h
    exact Reader.yields_document _ _ _ hread
  · cases h

end FusionInspect.Json
