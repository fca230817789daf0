import Shorthand.Json.Read
import Shorthand.Proofs.Json.Same

/-!
Reading the fields of an object by their keys. A field that may be missing is read as unset, as
false or as empty where it is. `Json.Respects` says of a reading that the order of fields is nothing
to it; every reading here is one of these if its parts are.
-/

namespace Shorthand.Json

/-! ## Readings -/

/-- A key is looked up among the fields of an object in their order. -/
@[simp]
theorem get?_object (key : String) (fields : List (String × Json)) :
    (Json.object fields).get? key = fields.lookup key := rfl

section Readings

variable {α : Type} (read : Json → Option α) (key : String)

def required? (v : Json) : Option α := (v.get? key).bind read

def optional? (v : Json) : Option (Option α) :=
  match v.get? key with
  | none => some none
  | some a => (read a).map some

def flag? (v : Json) : Option Bool := (optional? bool? key v).map fun b => b.getD false

def each? (v : Json) : Option (List α) := v.items?.bind fun items => items.mapM read

def list? (v : Json) : Option (List α) := (optional? (each? read) key v).map fun l => l.getD []

end Readings

/-! ## The order of fields -/

/-- What is read does not depend on the order of fields. -/
def Respects {α : Type} (read : Json → Option α) : Prop :=
  ∀ ⦃v w : Json⦄, Plain v → Same v w → read v = read w

theorem respects_string? : Respects string? := by
  rintro _ _ - (_ | _ | _) <;> rfl

theorem respects_bool? : Respects bool? := by
  rintro _ _ - (_ | _ | _) <;> rfl

theorem respects_int? : Respects int? := by
  rintro _ _ - (_ | _ | _) <;> rfl

theorem respects_nat? : Respects nat? := by
  rintro _ _ - (_ | _ | _) <;> rfl

namespace Respects

variable {α β : Type} {read : Json → Option α}

theorem const (x : Option α) : Respects fun _ => x := fun _ _ _ _ => rfl

theorem bind {next : α → Json → Option β} (h : Respects read) (hnext : ∀ a, Respects (next a)) :
    Respects fun v => (read v).bind fun a => next a v := by
  intro v w hv hsame
  show (read v).bind (fun a => next a v) = (read w).bind fun a => next a w
  rw [h hv hsame]
  congr 1
  funext a
  exact hnext a hv hsame

theorem map (f : α → β) (h : Respects read) : Respects fun v => (read v).map f := by
  intro v w hv hsame
  show (read v).map f = (read w).map f
  rw [h hv hsame]

/-- Under a key there is nothing on either side, or there are two values that are read alike. -/
theorem under {v w : Json} (h : Respects read) (hv : Plain v) (hsame : Same v w) (key : String) :
    (v.get? key = none ∧ w.get? key = none) ∨
      ∃ a b, v.get? key = some a ∧ w.get? key = some b ∧ read a = read b := by
  have hplain : ∀ a, v.get? key = some a → Plain a := fun a => hv.get?
  have hrel := hsame.get? hv key
  generalize v.get? key = x at hplain hrel ⊢
  generalize w.get? key = y at hrel ⊢
  cases hrel with
  | none => exact Or.inl ⟨rfl, rfl⟩
  | some hab => exact Or.inr ⟨_, _, rfl, rfl, h (hplain _ rfl) hab⟩

theorem required? (key : String) (h : Respects read) : Respects (required? read key) := by
  intro v w hv hsame
  rcases h.under hv hsame key with ⟨hnone, hnone'⟩ | ⟨a, b, ha, hb, hab⟩
  · rw [Json.required?, Json.required?, hnone, hnone']
  · rw [Json.required?, Json.required?, ha, hb]
    exact hab

theorem optional? (key : String) (h : Respects read) : Respects (optional? read key) := by
  intro v w hv hsame
  rcases h.under hv hsame key with ⟨hnone, hnone'⟩ | ⟨a, b, ha, hb, hab⟩
  · rw [Json.optional?, Json.optional?, hnone, hnone']
  · rw [Json.optional?, Json.optional?, ha, hb]
    exact congrArg (Option.map some) hab

theorem flag? (key : String) : Respects (flag? key) := (respects_bool?.optional? key).map _

theorem each? (h : Respects read) : Respects (each? read) := by
  intro v w hv hsame
  cases hsame with
  | refl _ => rfl
  | object _ _ _ _ => rfl
  | array parts hparts =>
    show (parts.map (·.1)).mapM read = (parts.map (·.2)).mapM read
    cases hv with
    | array hitems =>
      induction parts with
      | nil => rfl
      | cons p parts ih =>
        obtain ⟨hp, hparts⟩ := List.forall_mem_cons.1 hparts
        obtain ⟨hitem, hitems⟩ := List.forall_mem_cons.1 hitems
        rw [List.map_cons, List.map_cons, List.mapM_cons, List.mapM_cons, h hitem hp,
          ih hparts hitems]

theorem list? (key : String) (h : Respects read) : Respects (list? read key) :=
  (h.each?.optional? key).map _

end Respects

/-! ## Reading what was written -/

theorem string?_string (s : String) : (Json.string s).string? = some s := rfl

theorem bool?_bool (b : Bool) : (Json.bool b).bool? = some b := rfl

theorem int?_int (i : Int) : (Json.int i).int? = some i := Numeral.toInt?_ofInt i

theorem nat?_nat (n : Nat) : (Json.nat n).nat? = some n := by
  show (Json.int n).int?.bind _ = _
  rw [int?_int]
  rfl

section Written

variable {α : Type} {read : Json → Option α} {write : α → Json} {key : String} {v : Json}

theorem required?_of_get? {a : α} {w : Json} (hread : read w = some a) (h : v.get? key = some w) :
    required? read key v = some a := by
  rw [required?, h, Option.bind_some, hread]

/-- An optional field that is left out when unset is read back in either case. -/
theorem optional?_of_get? {a? : Option α} (hread : ∀ a, read (write a) = some a)
    (h : v.get? key = a?.map write) : optional? read key v = some a? := by
  rw [optional?, h]
  cases a? with
  | none => rfl
  | some a =>
    show (read (write a)).map some = some (some a)
    rw [hread, Option.map_some]

/-- A flag that is left out unless it is set is read back in either case. -/
theorem flag?_of_get? {b : Bool} (h : v.get? key = if b then some (.bool true) else none) :
    flag? key v = some b := by
  rw [flag?, optional?, h]
  cases b <;> rfl

/-- The items of an array are read back one by one. -/
theorem each?_array {items : List α} (hread : ∀ a ∈ items, read (write a) = some a) :
    each? read (.array (items.map write)) = some items := by
  show (items.map write).mapM read = some items
  induction items with
  | nil => rfl
  | cons a rest ih =>
    obtain ⟨ha, hrest⟩ := List.forall_mem_cons.1 hread
    rw [List.map_cons, List.mapM_cons, ha, ih hrest]
    rfl

/-- Where all items are read, each is read at its own place. -/
theorem getElem?_bind_of_each? {w : Json} {items : List α} (h : each? read w = some items) :
    ∃ parts : List Json, w.items? = some parts ∧ ∀ i : Nat, parts[i]?.bind read = items[i]? := by
  obtain ⟨parts, hparts, hread⟩ := Option.bind_eq_some_iff.1 h
  refine ⟨parts, hparts, ?_⟩
  clear h hparts
  induction parts generalizing items with
  | nil =>
    obtain rfl : [] = items := Option.some.inj hread
    exact fun _ => rfl
  | cons p rest ih =>
    rw [List.mapM_cons] at hread
    obtain ⟨a, ha, hrest⟩ := Option.bind_eq_some_iff.1 hread
    obtain ⟨more, hmore, hcons⟩ := Option.bind_eq_some_iff.1 hrest
    obtain rfl : a :: more = items := Option.some.inj hcons
    rintro (_ | i)
    · exact ha
    · exact ih hmore i

/-- A list that is left out when it is empty is read back in either case. -/
theorem list?_of_get? {items : List α} (hread : ∀ a ∈ items, read (write a) = some a)
    (h : v.get? key = if items.isEmpty then none else some (.array (items.map write))) :
    list? read key v = some items := by
  rw [list?, optional?, h]
  cases items with
  | nil => rfl
  | cons a rest =>
    show ((each? read (.array ((a :: rest).map write))).map some).map _ = _
    rw [each?_array hread]
    rfl

end Written

end Shorthand.Json
