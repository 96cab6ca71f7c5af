import CallGraph.Bookmark
import CallGraph.Proofs.Json.Codec
import CallGraph.Settings.Category
import Mathlib.Data.List.Forall2
import Mathlib.Data.List.Nodup

/-!
# Which JSON can be decoded

A `Json.Form` is a set of JSON values, described by how they are built.  A codec `Codec.Reads` a form if it decodes the
values of this form and no others.  The form of a list, an optional value or a record is made from the forms of its
parts, so that a fault at any depth is a fault of the whole.  The settings of each category have a form.
-/

namespace CallGraph

variable {ε α β : Type}

/-! ### Computations that may fail -/

/-- A computation that does not fail. -/
def Succeeds (x : Except ε α) : Prop :=
  ∃ a, x = .ok a

theorem succeeds_ok (a : α) :
  Succeeds (.ok a : Except ε α)
  :=
  ⟨a, rfl⟩

theorem not_succeeds_error (e : ε) :
  ¬ Succeeds (.error e : Except ε α)
  := by
  rintro ⟨_, ⟨⟩⟩

theorem succeeds_map {x : Except ε α} (f : α → β) :
  Succeeds (x.map f) ↔ Succeeds x
  := by
  cases x with
  | ok a => exact iff_of_true (succeeds_ok (f a)) (succeeds_ok a)
  | error e => exact iff_of_false (not_succeeds_error e) (not_succeeds_error e)

/-- One computation after the other, which fails or not whatever the first gave. -/
theorem succeeds_bind {x : Except ε α} {f : α → Except ε β} {P Q : Prop} (hx : Succeeds x ↔ P)
    (hf : ∀ a, Succeeds (f a) ↔ Q) :
  Succeeds (x >>= f) ↔ P ∧ Q
  := by
  rw [← hx]
  cases x with
  | ok a =>
    rw [Codec.ok_bind, hf a]
    exact (and_iff_right (succeeds_ok a)).symm
  | error e => exact iff_of_false (not_succeeds_error e) fun h => not_succeeds_error e h.1

/-! ### Forms -/

namespace Json

/-- A set of JSON values. -/
abbrev Form : Type :=
  Json → Prop

namespace Form

/-- Any text. -/
def text : Form
  | value => ∃ s, value = .text s

/-- A whole number of at most 32 bits. -/
def word : Form
  | value => ∃ n : Nat, n < 4294967296 ∧ value = .ofNat n

/-- One of some names, alone or as the only field of an object. -/
def oneOf (names : List String) : Form
  | value => ∃ name ∈ names, value = .text name ∨ value = .object [(name, .null)]

/-- Null, or a value of a form. -/
def nullable (form : Form) : Form
  | value => value = .null ∨ form value

/-- An array of values of a form. -/
def items (form : Form) : Form
  | value => ∃ values, value = .array values ∧ ∀ v ∈ values, form v

/-- A field of a record. -/
structure Field where
  name : String
  form : Form
  isRequired : Bool

/-- An object in which every field that is known has its form and no required one is missing, or an array of all fields
in order. -/
def record (fields : List Field) : Form
  | value =>
    (∃ given, value = .object given ∧
      (∀ field ∈ fields, ∀ v, (field.name, v) ∈ given → field.form v) ∧
      ∀ field ∈ fields, field.isRequired = true → ∃ v, (field.name, v) ∈ given) ∨
    ∃ values, value = .array values ∧ List.Forall₂ (fun field v => field.form v) fields values

/-- A place in a file. -/
def location : Form :=
  record [⟨"line", nullable word, false⟩, ⟨"column", nullable word, false⟩]

/-- A stretch of a file. -/
def callPosition : Form :=
  record [⟨"path", nullable text, false⟩, ⟨"start", location, true⟩, ⟨"end", location, true⟩]

/-- What is shown of a vertex. -/
def element : Form :=
  record [
    ⟨"name", text, true⟩, ⟨"kind", text, true⟩, ⟨"module", text, true⟩,
    ⟨"role", oneOf ["definition", "child", "parent", "signature"], true⟩, ⟨"path", nullable text, false⟩,
    ⟨"call_position", callPosition, true⟩, ⟨"start_position", location, true⟩, ⟨"end_position", location, true⟩]

/-- The settings of a category. -/
def settings : Category → Form
  | .projectSettings => record [⟨"project_directory", nullable text, false⟩]
  | .bookmarks => items (items element)
  | .sysPath | .modules | .files | .scripts => items text

end Form

end Json

open Json (Form)
open Json.Form (Field)

/-- A codec decodes the values of a form and no others. -/
def Codec.Reads (α : Type) [Codec α] (form : Form) : Prop :=
  ∀ value, Succeeds (decode value : Except DecodeFault α) ↔ form value

/-! ### Plain values -/

namespace Codec

theorem reads_string :
  Reads String .text
  := by
  intro value
  cases value with
  | text s => exact iff_of_true (succeeds_ok s) ⟨s, rfl⟩
  | _ => exact iff_of_false (not_succeeds_error _) (by rintro ⟨_, ⟨⟩⟩)

theorem reads_path :
  Reads Path .text
  := by
  intro value
  cases value with
  | text s => exact iff_of_true (succeeds_ok (⟨s⟩ : Path)) ⟨s, rfl⟩
  | _ => exact iff_of_false (not_succeeds_error _) (by rintro ⟨_, ⟨⟩⟩)

theorem reads_word :
  Reads UInt32 .word
  := by
  intro value
  change Succeeds ((decodeBounded 4294967295 "u32" value).map UInt32.ofNat) ↔ _
  rw [succeeds_map]
  cases value with
  | number n =>
    cases n with
    | integer i =>
      rw [decodeBounded]
      split
      case isTrue h =>
        obtain ⟨hlow, hhigh⟩ := (Bool.and_eq_true _ _).mp h
        have hlow := of_decide_eq_true hlow
        have hhigh := of_decide_eq_true hhigh
        refine iff_of_true (succeeds_ok _) ⟨i.toNat, by omega, ?_⟩
        rw [Json.ofNat, Int.toNat_of_nonneg hlow]
      case isFalse h =>
        refine iff_of_false (not_succeeds_error _) ?_
        rintro ⟨n, hn, hvalue⟩
        cases hvalue
        apply h
        rw [Bool.and_eq_true, decide_eq_true_iff, decide_eq_true_iff]
        omega
    | real bits => exact iff_of_false (not_succeeds_error _) (by rintro ⟨_, _, ⟨⟩⟩)
  | _ => exact iff_of_false (not_succeeds_error _) (by rintro ⟨_, _, ⟨⟩⟩)

theorem reads_option [Codec α] {form : Form} (h : Reads α form) :
  Reads (Option α) (.nullable form)
  := by
  intro value
  cases value with
  | null => exact iff_of_true (succeeds_ok none) (.inl rfl)
  | _ =>
    change Succeeds ((decode _ : Except DecodeFault α).map some) ↔ _
    rw [succeeds_map, h]
    exact ⟨.inr, by rintro (⟨⟨⟩⟩ | h); exact h⟩

theorem reads_list [Codec α] {form : Form} (h : Reads α form) :
  Reads (List α) (.items form)
  := by
  intro value
  cases value with
  | array values =>
    have hitems : Succeeds (decodeItems values : Except DecodeFault (List α)) ↔ ∀ v ∈ values, form v := by
      induction values with
      | nil => exact iff_of_true (succeeds_ok []) (List.forall_mem_nil _)
      | cons v values ih =>
        rw [decodeItems, List.forall_mem_cons]
        apply succeeds_bind (h v)
        intro a
        rw [succeeds_bind ih fun as => iff_of_true (succeeds_ok (a :: as)) trivial, and_true]
    refine hitems.trans ⟨fun hvalues => ⟨values, rfl, hvalues⟩, ?_⟩
    rintro ⟨_, ⟨⟩, hvalues⟩
    exact hvalues
  | _ => exact iff_of_false (not_succeeds_error _) (by rintro ⟨_, ⟨⟩, _⟩)

theorem succeeds_ofName (name : String) :
  Succeeds (Role.ofName name) ↔ name ∈ Role.all.map Role.text
  := by
  rw [Role.ofName]
  split
  case h_1 role hrole =>
    refine iff_of_true (succeeds_ok role) ?_
    have hname := List.find?_some hrole
    rw [← beq_iff_eq.mp hname]
    exact List.mem_map_of_mem (List.mem_of_find?_eq_some hrole)
  case h_2 hnone =>
    refine iff_of_false (not_succeeds_error _) fun hmem => ?_
    obtain ⟨role, hrole, rfl⟩ := List.mem_map.mp hmem
    exact List.find?_eq_none.mp hnone role hrole (beq_self_eq_true _)

theorem reads_role :
  Reads Role (.oneOf ["definition", "child", "parent", "signature"])
  := by
  intro value
  cases value with
  | text name =>
    refine (succeeds_ofName name).trans ⟨fun h => ⟨name, h, .inl rfl⟩, ?_⟩
    rintro ⟨_, h, ⟨⟨⟩⟩ | ⟨⟨⟩⟩⟩
    exact h
  | object fields =>
    match fields with
    | [] => exact iff_of_false (not_succeeds_error _) (by rintro ⟨_, _, ⟨⟨⟩⟩ | ⟨⟨⟩⟩⟩)
    | [(name, v)] =>
      cases v with
      | null =>
        have hnull : Succeeds (decode (.object [(name, .null)]) : Except DecodeFault Role) ↔ _ ∧ True :=
          succeeds_bind (succeeds_ofName name) fun role => iff_of_true (succeeds_ok role) trivial
        rw [hnull, and_true]
        refine ⟨fun h => ⟨name, h, .inr rfl⟩, ?_⟩
        rintro ⟨_, h, ⟨⟨⟩⟩ | ⟨⟨⟩⟩⟩
        exact h
      | _ =>
        refine iff_of_false ?_ (by rintro ⟨_, _, ⟨⟨⟩⟩ | ⟨⟨⟩⟩⟩)
        intro h
        exact ((succeeds_bind (succeeds_ofName name) fun role =>
          iff_of_false (not_succeeds_error _) not_false).mp h).2
    | _ :: _ :: _ => exact iff_of_false (not_succeeds_error _) (by rintro ⟨_, _, ⟨⟨⟩⟩ | ⟨⟨⟩⟩⟩)
  | _ => exact iff_of_false (not_succeeds_error _) (by rintro ⟨_, _, ⟨⟨⟩⟩ | ⟨⟨⟩⟩⟩)

end Codec

/-! ### Records -/

theorem succeeds_check [Codec α] {form : Form} (h : Codec.Reads α form) (value : Json) :
  Succeeds (check α value) ↔ form value
  := by
  rw [check, succeeds_map, h]

namespace RecordReader

/-- A field is found in what a record is read from, or is left out of an object that need not have it. -/
def Has (r : RecordReader) (field : Field) : Prop :=
  match r.source with
  | .inl given =>
    (∃ v, given.lookup field.name = some v ∧ field.form v) ∨
      given.lookup field.name = none ∧ field.isRequired = false
  | .inr values => ∃ v, values[r.position field.name]? = some v ∧ field.form v

/-- A value is decoded if there is one. -/
theorem succeeds_found [Codec α] {form : Form} (h : Codec.Reads α form) (found : Option Json)
    (missing : Except DecodeFault α) :
  Succeeds (match found with
      | some v => decode v
      | none => missing) ↔
    (∃ v, found = some v ∧ form v) ∨ found = none ∧ Succeeds missing
  := by
  cases found with
  | some v =>
    dsimp only
    rw [h v]
    constructor
    · exact fun hv => .inl ⟨v, rfl, hv⟩
    · rintro (⟨_, ⟨⟩, hv⟩ | ⟨⟨⟩, _⟩)
      exact hv
  | none =>
    constructor
    · exact fun hmissing => .inr ⟨rfl, hmissing⟩
    · rintro (⟨_, ⟨⟩, _⟩ | ⟨_, hmissing⟩)
      exact hmissing

theorem succeeds_required [Codec α] {form : Form} (h : Codec.Reads α form) (r : RecordReader) (name : String) :
  Succeeds (r.required name : Except DecodeFault α) ↔ r.Has ⟨name, form, true⟩
  := by
  rw [required, Has]
  cases r.source with
  | inl given =>
    apply (succeeds_found h (given.lookup name) _).trans
    refine or_congr_right (and_congr_right fun _ => ?_)
    exact iff_of_false (not_succeeds_error _) fun h => Bool.false_ne_true h.symm
  | inr values =>
    apply (succeeds_found h values[r.position name]? _).trans
    exact or_iff_left fun hnone => not_succeeds_error _ hnone.2

theorem succeeds_optional [Codec α] {form : Form} (h : Codec.Reads (Option α) form) {r : RecordReader}
    (hr : r.lenient = false) (name : String) :
  Succeeds (r.optional name : Except DecodeFault (Option α)) ↔ r.Has ⟨name, form, false⟩
  := by
  rw [optional, Has, hr]
  cases r.source with
  | inl given =>
    apply (succeeds_found h (given.lookup name) _).trans
    exact or_congr_right (and_congr_right fun _ => iff_of_true (succeeds_ok none) rfl)
  | inr values =>
    apply (succeeds_found h values[r.position name]? _).trans
    exact or_iff_left fun hnone => not_succeeds_error _ hnone.2

/-- A list of checks that stands for the fields of a record. -/
def Checks (known : List (String × (Json → Except DecodeFault Unit))) (fields : List Field) : Prop :=
  List.Forall₂ (fun k field => k.1 = field.name ∧ ∀ v, Succeeds (k.2 v) ↔ field.form v) known fields

/-- The check of a name is that of the field of this name. -/
theorem Checks.lookup {known : List (String × (Json → Except DecodeFault Unit))} {fields : List Field}
    (h : Checks known fields) (hnames : (fields.map Field.name).Nodup) (name : String) (v : Json) :
  (∀ check, known.lookup name = some check → Succeeds (check v)) ↔
    ∀ field ∈ fields, field.name = name → field.form v
  := by
  induction h with
  | nil => exact iff_of_true (by rintro _ ⟨⟩) (List.forall_mem_nil _)
  | @cons k field known fields hk _ ih =>
    obtain ⟨knownName, check⟩ := k
    obtain ⟨rfl, hcheck⟩ := hk
    rw [List.map_cons, List.nodup_cons] at hnames
    rw [List.lookup_cons, List.forall_mem_cons]
    cases hname : name == field.name with
    | true =>
      obtain rfl := eq_of_beq hname
      have hothers : ∀ other ∈ fields, other.name = field.name → other.form v := fun other hother hsame =>
        absurd (hsame ▸ List.mem_map_of_mem hother) hnames.1
      constructor
      · exact fun h => ⟨fun _ => (hcheck v).mp (h check rfl), hothers⟩
      · rintro h _ ⟨⟩
        exact (hcheck v).mpr (h.1 rfl)
    | false =>
      dsimp only
      rw [ih hnames.2, and_iff_right]
      rintro rfl
      rw [beq_self_eq_true] at hname
      cases hname

/-- The known fields of an object are looked at one by one. -/
theorem succeeds_checkFields {known : List (String × (Json → Except DecodeFault Unit))} {fields : List Field}
    (h : Checks known fields) (hnames : (fields.map Field.name).Nodup) (given : List (String × Json)) :
  Succeeds (checkFields known false given) ↔ ∀ field ∈ fields, ∀ v, (field.name, v) ∈ given → field.form v
  := by
  induction given with
  | nil => exact iff_of_true (succeeds_ok ()) fun _ _ _ hv => absurd hv List.not_mem_nil
  | cons x given ih =>
    obtain ⟨name, value⟩ := x
    have hfirst := h.lookup hnames name value
    have hcons : (∀ field ∈ fields, ∀ v, (field.name, v) ∈ (name, value) :: given → field.form v) ↔
        (∀ field ∈ fields, field.name = name → field.form value) ∧
          ∀ field ∈ fields, ∀ v, (field.name, v) ∈ given → field.form v := by
      constructor
      · intro h
        refine ⟨?_, fun field hfield v hv => h field hfield v (List.mem_cons_of_mem _ hv)⟩
        rintro field hfield rfl
        exact h field hfield value List.mem_cons_self
      · rintro ⟨hvalue, hgiven⟩ field hfield v hv
        rcases List.mem_cons.mp hv with heq | hv
        · obtain ⟨hname, rfl⟩ := Prod.mk.inj heq
          exact hvalue field hfield hname
        · exact hgiven field hfield v hv
    rw [hcons, checkFields, ← hfirst]
    split
    case h_1 check hcheck =>
      refine succeeds_bind ?_ fun _ => ih
      rw [hcheck]
      refine ⟨?_, fun h => h check rfl⟩
      rintro h _ ⟨⟩
      exact h
    case h_2 hnone =>
      rw [hnone, if_neg Bool.false_ne_true, ih]
      exact (and_iff_right (by rintro _ ⟨⟩)).symm

/-- Fields are counted in the order in which they are declared. -/
theorem position_eq {r : RecordReader} {fields : List Field} (h : Checks r.fields fields)
    (hnames : (fields.map Field.name).Nodup) {i : Nat} (hi : i < fields.length) :
  r.position fields[i].name = i
  := by
  obtain ⟨hlength, hknown⟩ := List.forall₂_iff_get.mp h
  have hname {j : Nat} (hj : j < r.fields.length) : r.fields[j].1 = fields[j].name := (hknown j hj (hlength ▸ hj)).1
  rw [position, List.findIdx_eq (hlength ▸ hi)]
  refine ⟨?_, fun j hj => ?_⟩
  · rw [hname (hlength ▸ hi)]
    exact beq_self_eq_true _
  · rw [hname (by omega), beq_eq_false_iff_ne]
    intro hsame
    have hdistinct := List.pairwise_map.mp hnames
    exact List.pairwise_iff_getElem.mp hdistinct j i (by omega) hi hj hsame

theorem mem_of_lookup {given : List (String × Json)} {name : String} {v : Json} (h : given.lookup name = some v) :
  (name, v) ∈ given
  := by
  obtain ⟨before, after, rfl, _⟩ := List.lookup_eq_some_iff.mp h
  exact List.mem_append_right before List.mem_cons_self

/-- The fields of an object are those of a record. -/
theorem has_object_iff {name : String} {known : List (String × (Json → Except DecodeFault Unit))} {lenient : Bool}
    {fields : List Field} {given : List (String × Json)}
    (hgiven : ∀ field ∈ fields, ∀ v, (field.name, v) ∈ given → field.form v) :
  (∀ field ∈ fields, Has ⟨name, known, lenient, .inl given⟩ field) ↔
    ∀ field ∈ fields, field.isRequired = true → ∃ v, (field.name, v) ∈ given
  := by
  constructor
  · intro h field hfield hrequired
    rcases h field hfield with ⟨v, hv, _⟩ | ⟨_, hoptional⟩
    · exact ⟨v, mem_of_lookup hv⟩
    · rw [hrequired] at hoptional
      cases hoptional
  · intro h field hfield
    cases hlookup : given.lookup field.name with
    | some v => exact .inl ⟨v, hlookup, hgiven field hfield v (mem_of_lookup hlookup)⟩
    | none =>
      refine .inr ⟨hlookup, ?_⟩
      rw [← Bool.not_eq_true]
      intro hrequired
      obtain ⟨v, hv⟩ := h field hfield hrequired
      have hfound := List.lookup_isSome_iff.mpr ⟨_, hv, beq_self_eq_true field.name⟩
      rw [hlookup] at hfound
      cases hfound

/-- The items of an array are the fields of a record, in order. -/
theorem has_array_iff {name : String} {known : List (String × (Json → Except DecodeFault Unit))} {lenient : Bool}
    {fields : List Field} {values : List Json} (h : Checks known fields) (hnames : (fields.map Field.name).Nodup) :
  (∀ field ∈ fields, Has ⟨name, known, lenient, .inr values⟩ field) ∧
      Succeeds (finish ⟨name, known, lenient, .inr values⟩) ↔
    List.Forall₂ (fun field v => field.form v) fields values
  := by
  have hplace {i : Nat} (hi : i < fields.length) :
      position ⟨name, known, lenient, .inr values⟩ fields[i].name = i :=
    position_eq (r := ⟨name, known, lenient, .inr values⟩) h hnames hi
  have hfinish : Succeeds (finish ⟨name, known, lenient, .inr values⟩) ↔ values.length ≤ fields.length := by
    rw [finish, ← h.length_eq]
    dsimp only
    split
    case isTrue hlong => exact iff_of_false (not_succeeds_error _) (Nat.not_le_of_lt hlong)
    case isFalse hshort => exact iff_of_true (succeeds_ok ()) (Nat.le_of_not_lt hshort)
  rw [hfinish, List.forall₂_iff_get]
  constructor
  · rintro ⟨hhas, hlength⟩
    have hitem {i : Nat} (hi : i < fields.length) : ∃ v, values[i]? = some v ∧ fields[i].form v := by
      have hfield := hhas fields[i] (List.getElem_mem hi)
      rw [Has, hplace hi] at hfield
      exact hfield
    refine ⟨?_, fun i hi hi' => ?_⟩
    · by_contra hshort
      obtain ⟨v, hv, _⟩ := hitem (i := values.length) (by omega)
      rw [List.getElem?_eq_none (Nat.le_refl _)] at hv
      cases hv
    · obtain ⟨v, hv, hform⟩ := hitem hi
      rw [List.getElem?_eq_getElem hi'] at hv
      cases hv
      exact hform
  · rintro ⟨hlength, hitems⟩
    refine ⟨fun field hfield => ?_, hlength.ge⟩
    obtain ⟨i, hi, rfl⟩ := List.getElem_of_mem hfield
    rw [Has]
    exact ⟨values[i], by rw [hplace hi, List.getElem?_eq_getElem], hitems i hi (hlength ▸ hi)⟩

/-- An object has the fields of a record, or an array does. -/
theorem reads {name : String} {known : List (String × (Json → Except DecodeFault Unit))} {fields : List Field}
    (h : Checks known fields) (hnames : (fields.map Field.name).Nodup) {body : RecordReader → Except DecodeFault α}
    (hbody : ∀ r : RecordReader, r.lenient = false →
      (Succeeds (body r) ↔ (∀ field ∈ fields, r.Has field) ∧ Succeeds r.finish)) (value : Json) :
  Succeeds (start name known false false value >>= body) ↔ Json.Form.record fields value
  := by
  cases value with
  | object given =>
    have hstart : start name known false false (.object given) >>= body =
        checkFields known false given >>= fun _ => body ⟨name, known, false, .inl given⟩ := by
      rw [start]
      cases checkFields known false given <;> rfl
    rw [hstart, succeeds_bind (succeeds_checkFields h hnames given) fun _ => hbody ⟨name, known, false, .inl given⟩ rfl]
    constructor
    · rintro ⟨hgiven, hhas, _⟩
      exact .inl ⟨given, rfl, hgiven, (has_object_iff hgiven).mp hhas⟩
    · rintro (⟨_, ⟨⟩, hgiven, hrequired⟩ | ⟨_, ⟨⟩, _⟩)
      exact ⟨hgiven, (has_object_iff hgiven).mpr hrequired, succeeds_ok ()⟩
  | array values =>
    change Succeeds (body ⟨name, known, false, .inr values⟩) ↔ _
    rw [hbody _ rfl, has_array_iff h hnames]
    constructor
    · exact fun hvalues => .inr ⟨values, rfl, hvalues⟩
    · rintro (⟨_, ⟨⟩, _⟩ | ⟨_, ⟨⟩, hvalues⟩)
      exact hvalues
  | _ =>
    refine iff_of_false (not_succeeds_error _) ?_
    rintro (⟨_, ⟨⟩, _⟩ | ⟨_, ⟨⟩, _⟩)

/-! ### What settings are made of -/

section Bodies

variable {r : RecordReader} {field : Field} {fields : List Field}

/-- A field is read, and then those that come after it. -/
theorem succeeds_field {x : Except DecodeFault α} {f : α → Except DecodeFault β} (hx : Succeeds x ↔ r.Has field)
    (hf : ∀ a, Succeeds (f a) ↔ (∀ field ∈ fields, r.Has field) ∧ Succeeds r.finish) :
  Succeeds (x >>= f) ↔ (∀ x ∈ field :: fields, r.Has x) ∧ Succeeds r.finish
  := by
  rw [succeeds_bind hx hf, List.forall_mem_cons, and_assoc]

/-- All fields are read. -/
theorem succeeds_finish (a : α) :
  Succeeds (r.finish >>= fun _ => .ok a) ↔ (∀ field ∈ [], r.Has field) ∧ Succeeds r.finish
  := by
  rw [succeeds_bind Iff.rfl fun _ => iff_of_true (succeeds_ok a) trivial, and_true]
  exact (and_iff_right (List.forall_mem_nil _)).symm

end Bodies

end RecordReader

namespace Codec

open RecordReader

theorem reads_location :
  Reads Location .location
  := by
  have hnumber := reads_option reads_word
  have hchecks := succeeds_check hnumber
  apply RecordReader.reads (.cons ⟨rfl, hchecks⟩ (.cons ⟨rfl, hchecks⟩ .nil)) (by decide)
  intro r hr
  apply succeeds_field (succeeds_optional hnumber hr "line")
  intro _
  apply succeeds_field (succeeds_optional hnumber hr "column")
  intro _
  exact succeeds_finish _

theorem reads_callPosition :
  Reads CallPosition .callPosition
  := by
  have hpath := reads_option reads_path
  have hplace := succeeds_check reads_location
  apply RecordReader.reads
    (.cons ⟨rfl, succeeds_check hpath⟩ (.cons ⟨rfl, hplace⟩ (.cons ⟨rfl, hplace⟩ .nil))) (by decide)
  intro r hr
  apply succeeds_field (succeeds_optional hpath hr "path")
  intro _
  apply succeeds_field (succeeds_required reads_location r "start")
  intro _
  apply succeeds_field (succeeds_required reads_location r "end")
  intro _
  exact succeeds_finish _

theorem reads_element :
  Reads Element .element
  := by
  have hpath := reads_option reads_path
  have htext := succeeds_check reads_string
  have hplace := succeeds_check reads_location
  apply RecordReader.reads
    (.cons ⟨rfl, htext⟩ (.cons ⟨rfl, htext⟩ (.cons ⟨rfl, htext⟩ (.cons ⟨rfl, succeeds_check reads_role⟩
      (.cons ⟨rfl, succeeds_check hpath⟩ (.cons ⟨rfl, succeeds_check reads_callPosition⟩
        (.cons ⟨rfl, hplace⟩ (.cons ⟨rfl, hplace⟩ .nil)))))))) (by decide)
  intro r hr
  apply succeeds_field (succeeds_required reads_string r "name")
  intro _
  apply succeeds_field (succeeds_required reads_string r "kind")
  intro _
  apply succeeds_field (succeeds_required reads_string r "module")
  intro _
  apply succeeds_field (succeeds_required reads_role r "role")
  intro _
  apply succeeds_field (succeeds_optional hpath hr "path")
  intro _
  apply succeeds_field (succeeds_required reads_callPosition r "call_position")
  intro _
  apply succeeds_field (succeeds_required reads_location r "start_position")
  intro _
  apply succeeds_field (succeeds_required reads_location r "end_position")
  intro _
  exact succeeds_finish _

theorem reads_projectSettings :
  Reads ProjectSettings (.settings .projectSettings)
  := by
  have hpath := reads_option reads_path
  apply RecordReader.reads (.cons ⟨rfl, succeeds_check hpath⟩ .nil) (by decide)
  intro r hr
  apply succeeds_field (succeeds_optional hpath hr "project_directory")
  intro _
  exact succeeds_finish _

end Codec

end CallGraph
