import Mathlib.Data.List.Nodup
import Shorthand.Proofs.Chain
import Shorthand.Proofs.Settings.Value

/-!
What a document writes of the settings. `WritesSettings` relates its entries to the settings written
in them; `Settings.ofDocument_of_writes` says that exactly these override the defaults.
-/

namespace Shorthand

open Yaml

/-! ## Single settings -/

inductive Setting where
  | form (f : OutputForm)
  | colour (c : ColourRule)
  | blockMinutes (n : UInt32)
  | taskMinutes (n : UInt32)
  | completionLimit (n : UInt64)

inductive Setting.Group where
  | general
  | parser
  | suggestions
deriving DecidableEq

namespace Setting

def Group.name : Group → String
  | .general => "general"
  | .parser => "parser"
  | .suggestions => "suggestions"

def Group.keys : Group → List String
  | .general => ["default_output", "color"]
  | .parser => ["default_block_minutes", "implicit_task_minutes"]
  | .suggestions => ["limit"]

def group : Setting → Group
  | .form _ => .general
  | .colour _ => .general
  | .blockMinutes _ => .parser
  | .taskMinutes _ => .parser
  | .completionLimit _ => .suggestions

def key : Setting → String
  | .form _ => "default_output"
  | .colour _ => "color"
  | .blockMinutes _ => "default_block_minutes"
  | .taskMinutes _ => "implicit_task_minutes"
  | .completionLimit _ => "limit"

def apply : Setting → Settings → Settings
  | .form f, s => { s with form := f }
  | .colour c, s => { s with colour := c }
  | .blockMinutes n, s => { s with line := { s.line with blockMinutes := n } }
  | .taskMinutes n, s => { s with line := { s.line with taskMinutes := n } }
  | .completionLimit n, s => { s with completionLimit := n }

theorem Group.name_inj {g g' : Group} (h : g.name = g'.name) : g = g' := by
  cases g <;> cases g' <;> simp [Group.name] at h ⊢

theorem Group.name_mem (g : Group) : g.name ∈ ["general", "parser", "suggestions"] := by
  cases g <;> simp [Group.name]

theorem key_mem_keys (w : Setting) : w.key ∈ w.group.keys := by
  cases w <;> simp [key, group, Group.keys]

theorem group_eq_of_key_eq {w w' : Setting} (h : w.key = w'.key) : w.group = w'.group := by
  cases w <;> cases w' <;> simp [key, group] at h ⊢

/-- Settings under different keys do not get in each other's way. -/
theorem apply_comm {w w' : Setting} (h : w.key ≠ w'.key) (s : Settings) :
    w.apply (w'.apply s) = w'.apply (w.apply s) := by
  cases w <;> cases w' <;> first | rfl | exact absurd rfl h

end Setting

namespace Settings

open Setting (Group)

def overridden (ws : List Setting) : Settings := ws.foldr Setting.apply {}

/-- Settings of distinct keys can be made in any order. -/
theorem overridden_perm {ws ws' : List Setting} (hkeys : (ws.map Setting.key).Nodup)
    (h : ws.Perm ws') : overridden ws = overridden ws' := by
  refine h.foldr_eq' (fun w hw w' hw' s => ?_) ({} : Settings)
  by_cases hkey : w.key = w'.key
  · rw [List.inj_on_of_nodup_map hkeys hw hw' hkey]
  · exact (Setting.apply_comm hkey s).symm

/-! ## Documents -/

variable {d : Document} {g : Group} {es : List (Node × Node)} {ws : List Setting}

inductive WritesValue (d : Document) (node : Node) : Setting → Prop
  | form {f : OutputForm} (h : WritesName d node f.name) : WritesValue d node (.form f)
  | colour {c : ColourRule} (h : WritesName d node c.name) : WritesValue d node (.colour c)
  | blockMinutes {n : UInt32} (h : WritesNumber d node n.toNat) :
      WritesValue d node (.blockMinutes n)
  | taskMinutes {n : UInt32} (h : WritesNumber d node n.toNat) : WritesValue d node (.taskMinutes n)
  | completionLimit {n : UInt64} (h : WritesNumber d node n.toNat) :
      WritesValue d node (.completionLimit n)

/-- The entries write these settings of a section, each key once and in any order, and have any
other keys besides. -/
inductive WritesGroup (d : Document) (g : Group) : List (Node × Node) → List Setting → Prop
  | nil : WritesGroup d g [] []
  | setting {w : Setting} {key value : Node} {es : List (Node × Node)} {ws : List Setting}
      (hgroup : w.group = g) (hkey : keyText? d key = some w.key) (hvalue : WritesValue d value w)
      (honce : ∀ e ∈ es, keyText? d e.1 ≠ some w.key) (h : WritesGroup d g es ws) :
      WritesGroup d g ((key, value) :: es) (w :: ws)
  | unknown {text : String} {key value : Node} {es : List (Node × Node)} {ws : List Setting}
      (hkey : keyText? d key = some text) (hunknown : text ∉ g.keys) (h : WritesGroup d g es ws) :
      WritesGroup d g ((key, value) :: es) ws

/-- The entries write sections with these settings, each section once and in any order, and have any
other keys besides. -/
inductive WritesSettings (d : Document) : List (Node × Node) → List Setting → Prop
  | nil : WritesSettings d [] []
  | group {g : Group} {key value : Node} {inner es : List (Node × Node)} {ws ws' : List Setting}
      (hkey : keyText? d key = some g.name) (hvalue : entries? d value = some inner)
      (hinner : WritesGroup d g inner ws) (honce : ∀ e ∈ es, keyText? d e.1 ≠ some g.name)
      (h : WritesSettings d es ws') : WritesSettings d ((key, value) :: es) (ws ++ ws')
  | unknown {text : String} {key value : Node} {es : List (Node × Node)} {ws : List Setting}
      (hkey : keyText? d key = some text) (hunknown : ∀ g : Group, text ≠ g.name)
      (h : WritesSettings d es ws) : WritesSettings d ((key, value) :: es) ws

/-! ## Known keys -/

def Writes (d : Document) (entry : String × Node) (w : Setting) : Prop :=
  entry.1 = w.key ∧ WritesValue d entry.2 w

section Known

variable {keys : List String} {key value : Node} {text : String} {found : List (String × Node)}

/-- An entry of a key that nobody asks for is passed over. -/
theorem known_cons_of_not_mem (hkey : keyText? d key = some text) (htext : text ∉ keys)
    (h : known d keys es = .ok found) : known d keys ((key, value) :: es) = .ok found := by
  simp [known, hkey, htext, h, bind, Except.bind, pure, Except.pure]

/-- An entry of a known key is found, if the key does not come again. -/
theorem known_cons_of_mem (hkey : keyText? d key = some text) (htext : text ∈ keys)
    (h : known d keys es = .ok found) (honce : found.lookup text = none) :
    known d keys ((key, value) :: es) = .ok ((text, value) :: found) := by
  simp [known, hkey, htext, h, honce, bind, Except.bind, pure, Except.pure]

/-- Only what the entries hold is found. -/
theorem lookup_known (h : known d keys es = .ok found)
    (hnone : ∀ e ∈ es, keyText? d e.1 ≠ some text) : found.lookup text = none := by
  -- By induction on the entries: each is found under its own key only, or passed over.
  induction es generalizing found with
  | nil =>
    obtain rfl : [] = found := Except.ok.inj h
    rfl
  | cons e es ih =>
    obtain ⟨key, value⟩ := e
    obtain ⟨hkey, hes⟩ := List.forall_mem_cons.1 hnone
    cases hname : keyText? d key with
    | none => simp [known, hname] at h
    | some name =>
      simp only [known, hname] at h
      obtain ⟨others, hothers, h⟩ := bind_eq_ok_iff.1 h
      have hlookup := ih hothers hes
      split at h
      · obtain rfl : others = found := Except.ok.inj h
        exact hlookup
      · split at h
        · cases h
        · obtain rfl : (name, value) :: others = found := Except.ok.inj h
          have hne : text ≠ name := by
            rintro rfl
            exact hkey hname
          rw [List.lookup_cons, beq_false_of_ne hne]
          exact hlookup

end Known

/-- In a section that writes settings the entries of these are found, and no others. -/
theorem known_of_writesGroup (h : WritesGroup d g es ws) :
    ∃ found, known d g.keys es = .ok found ∧ List.Forall₂ (Writes d) found ws := by
  induction h with
  | nil => exact ⟨[], rfl, .nil⟩
  | @setting w key value es ws hgroup hkey hvalue honce h ih =>
    obtain ⟨found, hfound, hwrites⟩ := ih
    exact ⟨_, known_cons_of_mem hkey (hgroup ▸ w.key_mem_keys) hfound (lookup_known hfound honce),
      .cons ⟨rfl, hvalue⟩ hwrites⟩
  | unknown hkey hunknown h ih =>
    obtain ⟨found, hfound, hwrites⟩ := ih
    exact ⟨found, known_cons_of_not_mem hkey hunknown hfound, hwrites⟩

/-! ## Sections -/

theorem WritesGroup.group_eq (h : WritesGroup d g es ws) : ∀ w ∈ ws, w.group = g := by
  induction h with
  | nil => nofun
  | setting hgroup hkey hvalue honce h ih => exact List.forall_mem_cons.2 ⟨hgroup, ih⟩
  | unknown hkey hunknown h ih => exact ih

/-- The entries found in a section are the settings written in it. -/
def Holds (d : Document) (sections : List (String × Node)) (ws : List Setting) (g : Group) : Prop :=
  ∃ found, subsection d sections g.name g.keys = .ok found ∧
    List.Forall₂ (Writes d) found (ws.filter (·.group = g))

theorem known_of_writesSettings (h : WritesSettings d es ws) :
    ∃ found, known d ["general", "parser", "suggestions"] es = .ok found ∧
      ∀ g, Holds d found ws g := by
  -- By induction on the entries: a section that is found holds what is written in it, and what is
  -- written further on belongs to other sections.
  induction h with
  | nil => exact ⟨[], rfl, fun g => ⟨[], rfl, .nil⟩⟩
  | @group g key value inner es ws ws' hkey hvalue hinner honce h ih =>
    obtain ⟨found, hfound, hholds⟩ := ih
    have hlookup := lookup_known hfound honce
    refine ⟨_, known_cons_of_mem hkey g.name_mem hfound hlookup, fun g' => ?_⟩
    by_cases hg : g' = g
    · subst hg
      -- Nothing of this section is written further on.
      obtain ⟨rest, hrest, hempty⟩ := hholds g'
      rw [subsection, hlookup] at hrest
      obtain rfl := Except.ok.inj hrest
      have hnone := List.forall₂_nil_left_iff.1 hempty
      obtain ⟨settings, hsettings, hwrites⟩ := known_of_writesGroup hinner
      refine ⟨settings, ?_, ?_⟩
      · rw [subsection, List.lookup_cons, beq_self_eq_true]
        simpa [section?, hvalue] using hsettings
      · have hall : ws.filter (·.group = g') = ws :=
          List.filter_eq_self.2 fun w hw => by simpa using hinner.group_eq w hw
        rwa [List.filter_append, hnone, hall, List.append_nil]
    · obtain ⟨settings, hsettings, hwrites⟩ := hholds g'
      have hname : g'.name ≠ g.name := fun h => hg (Group.name_inj h)
      refine ⟨settings, ?_, ?_⟩
      · rw [subsection, List.lookup_cons, beq_false_of_ne hname]
        exact hsettings
      · have hnone : ws.filter (·.group = g') = [] := List.filter_eq_nil_iff.2 fun w hw => by
          simpa [hinner.group_eq w hw] using Ne.symm hg
        rwa [List.filter_append, hnone, List.nil_append]
  | @unknown text key value es ws hkey hunknown h ih =>
    obtain ⟨found, hfound, hholds⟩ := ih
    have htext : text ∉ ["general", "parser", "suggestions"] := by
      simp only [List.mem_cons, List.not_mem_nil, or_false, not_or]
      exact ⟨hunknown .general, hunknown .parser, hunknown .suggestions⟩
    exact ⟨found, known_cons_of_not_mem hkey htext hfound, hholds⟩

/-! ## Values -/

/-- What `get` takes from the settings is the value under a key of a section, which `read` reads. -/
structure IsField {α : Type} (d : Document) (g : Group) (key : String) (read : Node → Option α)
    (get : Settings → α) : Prop where
  group : ∀ w : Setting, w.key = key → w.group = g
  same : ∀ (w : Setting) (s s' : Settings), w.key = key → get (w.apply s) = get (w.apply s')
  other : ∀ (w : Setting) (s : Settings), w.key ≠ key → get (w.apply s) = get s
  read : ∀ (w : Setting) (node : Node) (s : Settings), w.key = key → WritesValue d node w →
    read node = some (get (w.apply s))

namespace IsField

variable {α : Type} {key : String} {read : Node → Option α} {get : Settings → α}

/-- A value is overridden by the settings of its section only. -/
theorem get_overridden_filter (h : IsField d g key read get) (ws : List Setting) :
    get (overridden (ws.filter (·.group = g))) = get (overridden ws) := by
  induction ws with
  | nil => rfl
  | cons w ws ih =>
    by_cases hkey : w.key = key
    · rw [List.filter_cons_of_pos (by simpa using h.group w hkey)]
      exact h.same w _ _ hkey
    · rw [show overridden (w :: ws) = w.apply (overridden ws) from rfl, h.other w _ hkey, ← ih]
      by_cases hgroup : w.group = g
      · rw [List.filter_cons_of_pos (by simpa using hgroup)]
        exact h.other w _ hkey
      · rw [List.filter_cons_of_neg (by simpa using hgroup)]

/-- What is read under the key, or its default if the key is left out. -/
theorem field_eq (h : IsField d g key read get) {found : List (String × Node)}
    (hfound : List.Forall₂ (Writes d) found ws) :
    field found key (get {}) read = .ok (get (overridden ws)) := by
  induction hfound with
  | nil => rfl
  | @cons e w found ws hw hfound ih =>
    obtain ⟨name, node⟩ := e
    obtain ⟨rfl, hvalue⟩ := hw
    by_cases hkey : w.key = key
    · subst hkey
      simp only [field, List.lookup_cons, beq_self_eq_true]
      rw [h.read w node _ rfl hvalue]
      rfl
    · have hne : (key == w.key) = false := beq_false_of_ne (Ne.symm hkey)
      simp only [field, List.lookup_cons, hne] at ih ⊢
      rw [ih]
      exact congrArg _ (h.other w _ hkey).symm

/-- A field gets the setting that is written for it, or keeps its default. -/
theorem field_eq_of_holds (h : IsField d g key read get) {found : List (String × Node)}
    (hfound : List.Forall₂ (Writes d) found (ws.filter (·.group = g))) :
    field found key (get {}) read = .ok (get (overridden ws)) := by
  rw [h.field_eq hfound, h.get_overridden_filter]

theorem form : IsField d .general "default_output" (fun n => (name? d n).bind OutputForm.ofName?)
    Settings.form := by
  constructor
  all_goals intro w
  all_goals cases w <;> simp [Setting.key, Setting.group, Setting.apply]
  intro node _ h
  cases h with
  | form h => simp [h.name?]

theorem colour : IsField d .general "color" (fun n => (name? d n).bind ColourRule.ofName?)
    Settings.colour := by
  constructor
  all_goals intro w
  all_goals cases w <;> simp [Setting.key, Setting.group, Setting.apply]
  intro node _ h
  cases h with
  | colour h => simp [h.name?]

theorem blockMinutes : IsField d .parser "default_block_minutes" (word32? d)
    (·.line.blockMinutes) := by
  constructor
  all_goals intro w
  all_goals cases w <;> simp [Setting.key, Setting.group, Setting.apply]
  intro node _ h
  cases h with
  | blockMinutes h => exact h.word32?

theorem taskMinutes : IsField d .parser "implicit_task_minutes" (word32? d)
    (·.line.taskMinutes) := by
  constructor
  all_goals intro w
  all_goals cases w <;> simp [Setting.key, Setting.group, Setting.apply]
  intro node _ h
  cases h with
  | taskMinutes h => exact h.word32?

theorem completionLimit : IsField d .suggestions "limit" (word64? d)
    Settings.completionLimit := by
  constructor
  all_goals intro w
  all_goals cases w <;> simp [Setting.key, Setting.group, Setting.apply]
  intro node _ h
  cases h with
  | completionLimit h => exact h.word64?

end IsField

/-- The settings in a document are the defaults, overridden by what is written. -/
theorem ofDocument_of_writes (hroot : entries? d d.root = some es) (h : WritesSettings d es ws) :
    ofDocument d = .ok (overridden ws) := by
  obtain ⟨sections, hsections, hholds⟩ := known_of_writesSettings h
  have hroot : section? d ["general", "parser", "suggestions"] d.root = .ok sections := by
    rw [section?, hroot]
    exact hsections
  obtain ⟨general, hgeneral, hg⟩ := hholds .general
  obtain ⟨line, hline, hl⟩ := hholds .parser
  obtain ⟨suggestions, hsuggestions, hs⟩ := hholds .suggestions
  have hform := IsField.form.field_eq_of_holds hg
  have hcolour := IsField.colour.field_eq_of_holds hg
  have hblock := IsField.blockMinutes.field_eq_of_holds hl
  have htask := IsField.taskMinutes.field_eq_of_holds hl
  have hlimit := IsField.completionLimit.field_eq_of_holds hs
  simp only [Group.name, Group.keys] at hgeneral hline hsuggestions
  simp only [ofDocument, hroot, hgeneral, hline, hsuggestions, hform, hcolour, hblock, htask,
    hlimit, bind, Except.bind, pure, Except.pure]

/-! ## Each key once -/

theorem WritesGroup.exists_key (h : WritesGroup d g es ws) :
    ∀ w ∈ ws, ∃ e ∈ es, keyText? d e.1 = some w.key := by
  induction h with
  | nil => nofun
  | @setting w key value es ws hgroup hkey hvalue honce h ih =>
    refine List.forall_mem_cons.2 ⟨⟨_, List.mem_cons_self .., hkey⟩, fun w hw => ?_⟩
    obtain ⟨e, he, hkey⟩ := ih w hw
    exact ⟨e, List.mem_cons_of_mem _ he, hkey⟩
  | unknown hkey hunknown h ih =>
    intro w hw
    obtain ⟨e, he, hkey⟩ := ih w hw
    exact ⟨e, List.mem_cons_of_mem _ he, hkey⟩

theorem WritesGroup.nodup_keys (h : WritesGroup d g es ws) : (ws.map Setting.key).Nodup := by
  induction h with
  | nil => exact List.nodup_nil
  | @setting w key value es ws hgroup hkey hvalue honce h ih =>
    rw [List.map_cons, List.nodup_cons]
    refine ⟨fun hmem => ?_, ih⟩
    obtain ⟨w', hw', hsame⟩ := List.mem_map.1 hmem
    obtain ⟨e, he, hkey'⟩ := h.exists_key w' hw'
    exact honce e he (hsame ▸ hkey')
  | unknown hkey hunknown h ih => exact ih

theorem WritesSettings.exists_group (h : WritesSettings d es ws) :
    ∀ w ∈ ws, ∃ e ∈ es, keyText? d e.1 = some w.group.name := by
  induction h with
  | nil => nofun
  | @group g key value inner es ws ws' hkey hvalue hinner honce h ih =>
    intro w hw
    rcases List.mem_append.1 hw with hw | hw
    · exact ⟨_, List.mem_cons_self .., by rw [hinner.group_eq w hw]; exact hkey⟩
    · obtain ⟨e, he, hkey⟩ := ih w hw
      exact ⟨e, List.mem_cons_of_mem _ he, hkey⟩
  | unknown hkey hunknown h ih =>
    intro w hw
    obtain ⟨e, he, hkey⟩ := ih w hw
    exact ⟨e, List.mem_cons_of_mem _ he, hkey⟩

/-- No setting is written twice. -/
theorem WritesSettings.nodup_keys (h : WritesSettings d es ws) :
    (ws.map Setting.key).Nodup := by
  induction h with
  | nil => exact List.nodup_nil
  | @group g key value inner es ws ws' hkey hvalue hinner honce h ih =>
    rw [List.map_append, List.nodup_append]
    refine ⟨hinner.nodup_keys, ih, ?_⟩
    rintro _ hmem _ hmem' rfl
    obtain ⟨w, hw, rfl⟩ := List.mem_map.1 hmem
    obtain ⟨w', hw', hsame⟩ := List.mem_map.1 hmem'
    obtain ⟨e, he, hname⟩ := h.exists_group w' hw'
    rw [Setting.group_eq_of_key_eq hsame, hinner.group_eq w hw] at hname
    exact honce e he hname
  | unknown hkey hunknown h ih => exact ih

end Settings

end Shorthand
