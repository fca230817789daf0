import Shorthand.Proofs.Json.Printed

/-!
JSON values up to the order of fields. `Json.Plain.same_sorted` says that putting the keys in order
changes nothing else, and `Json.Same.get?` that what stands under a key stays.
-/

namespace Shorthand.Json

/-- The values differ at most in the order in which the fields of their objects are written. A part
of an object is a key with what stands under it on either side. -/
inductive Same : Json → Json → Prop
  | refl (v : Json) : Same v v
  | array (parts : List (Json × Json)) (h : ∀ p ∈ parts, Same p.1 p.2) :
      Same (.array (parts.map (·.1))) (.array (parts.map (·.2)))
  | object (parts : List (String × Json × Json)) {left right : List (String × Json)}
      (hleft : left.Perm (parts.map fun p => (p.1, p.2.1)))
      (hright : right.Perm (parts.map fun p => (p.1, p.2.2)))
      (h : ∀ p ∈ parts, Same p.2.1 p.2.2) : Same (.object left) (.object right)

theorem Same.symm {v w : Json} (h : Same v w) : Same w v := by
  induction h with
  | refl v => exact .refl v
  | array parts _ ih =>
    have hswap := Same.array (parts.map Prod.swap) (List.forall_mem_map.2 ih)
    simpa [Function.comp_def] using hswap
  | object parts hleft hright _ ih =>
    refine .object (parts.map fun p => (p.1, p.2.swap)) ?_ ?_ ?_
    · simpa [Function.comp_def] using hright
    · simpa [Function.comp_def] using hleft
    · exact List.forall_mem_map.2 ih

/-! ## Keys in order -/

/-- A field is put among the others, and none is lost. -/
theorem insertField_perm (field : String × Json) (fields : List (String × Json)) :
    (insertField field fields).Perm (field :: fields) := by
  induction fields with
  | nil => exact .refl _
  | cons other rest ih =>
    rw [insertField]
    split
    · exact .refl _
    · exact (ih.cons other).trans (.swap field other rest)

theorem sortedItems_eq (items : List Json) : sortedItems items = items.map sorted := by
  induction items with
  | nil => rfl
  | cons v rest ih => rw [sortedItems, ih, List.map_cons]

/-- Sorting keeps all fields, with their values sorted in turn. -/
theorem sortedFields_perm (fields : List (String × Json)) :
    (sortedFields fields).Perm (fields.map fun f => (f.1, sorted f.2)) := by
  induction fields with
  | nil => exact .refl _
  | cons f rest ih => exact (insertField_perm _ _).trans (ih.cons _)

/-- Putting the keys in order changes the order of fields only. -/
theorem Plain.same_sorted {v : Json} (h : Plain v) : Same v v.sorted := by
  induction h with
  | null => exact .refl _
  | bool b => exact .refl _
  | int i => exact .refl _
  | string s => exact .refl _
  | @array items _ ih =>
    have hsame := Same.array (items.map fun v => (v, sorted v)) (List.forall_mem_map.2 ih)
    simpa [sorted, sortedItems_eq, Function.comp_def] using hsame
  | @object fields _ _ ih =>
    refine .object (fields.map fun f => (f.1, f.2, sorted f.2)) ?_ ?_ ?_
    · simp [Function.comp_def]
    · simpa [Function.comp_def] using sortedFields_perm fields
    · exact List.forall_mem_map.2 ih

/-- A plain value stays plain when its fields are sorted. -/
theorem Plain.sorted {v : Json} (h : Plain v) : Plain v.sorted := by
  induction h with
  | null => exact .null
  | bool b => exact .bool b
  | int i => exact .int i
  | string s => exact .string s
  | @array items _ ih =>
    rw [Json.sorted, sortedItems_eq]
    exact .array (List.forall_mem_map.2 ih)
  | @object fields hkeys _ ih =>
    have hperm := sortedFields_perm fields
    have hmap : ((sortedFields fields).map Prod.fst).Perm (fields.map Prod.fst) := by
      simpa [Function.comp_def] using hperm.map Prod.fst
    refine .object (hmap.nodup_iff.2 hkeys) ?_
    · intro f hf
      obtain ⟨g, hg, rfl⟩ := List.mem_map.1 (hperm.mem_iff.1 hf)
      exact ih g hg

/-! ## What stands under a key -/

/-- With distinct keys the order of fields does not matter for looking one up. -/
theorem lookup_eq_of_perm {left right : List (String × Json)} (key : String)
    (h : left.Perm right) (hkeys : (left.map Prod.fst).Nodup) :
    left.lookup key = right.lookup key := by
  induction h with
  | nil => rfl
  | cons f _ ih =>
    rw [List.lookup_cons, List.lookup_cons, ih (List.nodup_cons.1 hkeys).2]
  | swap f g rest =>
    -- Two neighbours have different keys, so at most one of them is found.
    have hne : g.1 ≠ f.1 := fun heq => (List.nodup_cons.1 hkeys).1 (heq ▸ List.mem_cons_self)
    rw [List.lookup_cons, List.lookup_cons, List.lookup_cons, List.lookup_cons]
    by_cases hg : key = g.1
    · have hf : key ≠ f.1 := fun hf => hne (hg.symm.trans hf)
      rw [beq_false_of_ne hf]
    · rw [beq_false_of_ne hg]
  | trans hmid _ ih ih' => rw [ih hkeys, ih' ((hmid.map Prod.fst).nodup_iff.1 hkeys)]

/-- What stands under a key on either side is the same, if anything does. -/
theorem lookup_parts (key : String) {parts : List (String × Json × Json)}
    (h : ∀ p ∈ parts, Same p.2.1 p.2.2) :
    Option.Rel Same ((parts.map fun p => (p.1, p.2.1)).lookup key)
      ((parts.map fun p => (p.1, p.2.2)).lookup key) := by
  induction parts with
  | nil => exact .none
  | cons p parts ih =>
    obtain ⟨hp, hparts⟩ := List.forall_mem_cons.1 h
    rw [List.map_cons, List.map_cons, List.lookup_cons, List.lookup_cons]
    cases key == p.1
    · exact ih hparts
    · exact .some hp

/-- Values that are the same up to the order of fields have the same under each key. -/
theorem Same.get? {v w : Json} (h : Same v w) (hv : Plain v) (key : String) :
    Option.Rel Same (v.get? key) (w.get? key) := by
  cases h with
  | refl v =>
    cases v.get? key with
    | none => exact .none
    | some a => exact .some (.refl a)
  | array parts _ => exact .none
  | @object parts left right hleft hright h =>
    cases hv with
    | object hkeys _ =>
      have hkeys' : (right.map Prod.fst).Nodup := by
        have hmap := (hleft.map Prod.fst).trans
          (by simpa [Function.comp_def] using (hright.map Prod.fst).symm)
        exact hmap.nodup_iff.1 hkeys
      show Option.Rel Same (left.lookup key) (right.lookup key)
      rw [lookup_eq_of_perm key hleft hkeys, lookup_eq_of_perm key hright hkeys']
      exact lookup_parts key h

theorem Plain.get? {v a : Json} {key : String} (hv : Plain v) (ha : v.get? key = some a) :
    Plain a := by
  cases hv with
  | object hkeys h =>
    obtain ⟨front, back, hfields, -⟩ := List.lookup_eq_some_iff.1 ha
    exact h (key, a) (hfields ▸ List.mem_append_right _ List.mem_cons_self)
  | _ => cases ha

end Shorthand.Json
