import CallGraph.Bookmark
import CallGraph.Proofs.Json.Reading

/-!
# Faithful codecs

A codec is faithful if it decodes what it encodes, and encodes to JSON that is read back from its written
form.  The codecs of what settings are made of are faithful.
-/

namespace CallGraph

open Json (IsPlain)

/-- Values are decoded from what they are encoded to, which is plain JSON of some height. -/
structure Codec.IsFaithful (α : Type) [Codec α] (height : Nat) : Prop where
  decode_encode : ∀ a : α, decode (encode a) = .ok a
  isPlain : ∀ a : α, IsPlain height (encode a)

theorem Json.IsPlain.mono {height height' : Nat} {value : Json} (h : IsPlain height value) (hle : height ≤ height') :
  IsPlain height' value
  := by
  induction h generalizing height' with
  | null => exact .null
  | nat hn => exact .nat hn
  | text s => exact .text s
  | array _ ih =>
    obtain ⟨height', rfl⟩ := Nat.exists_eq_add_one_of_ne_zero (n := height') (by omega)
    exact .array fun item hitem => ih item hitem (by omega)
  | object _ hfields ih =>
    obtain ⟨height', rfl⟩ := Nat.exists_eq_add_one_of_ne_zero (n := height') (by omega)
    exact .object (fun field hfield => ih field hfield (by omega)) hfields

theorem Json.insertField_nil (name : String) (value : Json) :
  insertField name value [] = [(name, value)]
  :=
  rfl

theorem Json.insertField_before {name other : String} {value otherValue : Json} {rest : List (String × Json)}
    (h : name < other) :
  insertField name value ((other, otherValue) :: rest) = (name, value) :: (other, otherValue) :: rest
  :=
  if_pos h

theorem Json.insertField_after {name other : String} {value otherValue : Json} {rest : List (String × Json)}
    (h : ¬ name < other) (hne : name ≠ other) :
  insertField name value ((other, otherValue) :: rest) = (other, otherValue) :: insertField name value rest
  := by
  rw [insertField, if_neg h, if_neg hne]

theorem check_eq_ok {α : Type} [Codec α] {value : Json} {a : α} (h : decode value = .ok a) :
  check α value = .ok ()
  := by
  rw [check, h]
  rfl

theorem Codec.ok_bind {ε α β : Type} (a : α) (f : α → Except ε β) :
  (Except.ok a >>= f) = f a
  :=
  rfl

namespace Codec.IsFaithful

/-! ### Plain values -/

theorem string :
  IsFaithful String 0
  :=
  ⟨fun _ => rfl, .text⟩

theorem path :
  IsFaithful Path 0
  :=
  ⟨fun _ => rfl, fun p => .text p.spelling⟩

theorem uint32 :
  IsFaithful UInt32 0
  := by
  constructor
  · intro n
    have hn : 0 ≤ (n.toNat : Int) ∧ (n.toNat : Int) ≤ 4294967295 := by
      have hlt := n.toNat_lt
      omega
    change (decodeBounded 4294967295 "u32" (.ofNat n.toNat)).map UInt32.ofNat = .ok n
    rw [Json.ofNat, decodeBounded, if_pos (by simpa using hn)]
    simp [Except.map]
  · intro n
    have hn := n.toNat_lt
    exact .nat (by rw [Json.maxWord]; omega)

theorem role :
  IsFaithful Role 0
  := by
  refine ⟨fun r => ?_, fun r => .text r.text⟩
  change Role.ofName r.text = .ok r
  cases r <;> rfl

variable {α : Type} [Codec α] {height : Nat}

theorem list (h : IsFaithful α height) :
  IsFaithful (List α) (height + 1)
  := by
  constructor
  · intro items
    change decodeItems (items.map encode) = .ok items
    induction items with
    | nil => rfl
    | cons item items ih =>
      rw [List.map_cons, decodeItems, h.decode_encode, ih]
      rfl
  · intro items
    apply IsPlain.array
    simp only [List.mem_map, forall_exists_index, and_imp]
    rintro _ item - rfl
    exact h.isPlain item

theorem option (h : IsFaithful α height) (hnull : ∀ a : α, encode a ≠ .null) :
  IsFaithful (Option α) height
  := by
  constructor
  · rintro (_ | a)
    · rfl
    · have hmap : (decode (encode a) : Except DecodeFault α).map some = .ok (some a) := by
        rw [h.decode_encode]
        rfl
      have hnull := hnull a
      change (instCodecOption.decode (encode a) : Except DecodeFault (Option α)) = _
      rw [← hmap]
      generalize encode a = value at hnull
      cases value with
      | null => exact absurd rfl hnull
      | _ => rfl
  · rintro (_ | a)
    · exact .null
    · exact h.isPlain a

/-! ### Records -/

theorem location :
  IsFaithful Location 1
  := by
  have hnumber : IsFaithful (Option UInt32) 0 := uint32.option nofun
  have hfields (l : Location) :
      encode l = .object [("column", encode l.column), ("line", encode l.line)] := by
    change Json.ofFields _ = _
    simp only [Json.ofFields, List.foldl, Json.insertField_nil, Json.insertField_before, String.reduceLT]
  constructor
  · intro l
    have hline := hnumber.decode_encode l.line
    have hcolumn := hnumber.decode_encode l.column
    rw [hfields]
    change (RecordReader.start "Location" _ false false _ >>= _) = _
    simp [RecordReader.start, RecordReader.checkFields, RecordReader.optional, RecordReader.finish, List.lookup_cons,
      Codec.ok_bind, check_eq_ok hline, check_eq_ok hcolumn, hline, hcolumn]
  · intro l
    rw [hfields]
    apply IsPlain.object
    · simp [hnumber.isPlain]
    · simp only [Json.ofFields, List.foldl, Json.insertField_nil, Json.insertField_after, String.reduceLT,
        String.reduceNe, not_false_eq_true]

theorem callPosition :
  IsFaithful CallPosition 2
  := by
  have hpath : IsFaithful (Option Path) 0 := path.option nofun
  have hfields (p : CallPosition) :
      encode p = .object [("end", encode p.stop), ("path", encode p.path), ("start", encode p.start)] := by
    change Json.ofFields _ = _
    simp only [Json.ofFields, List.foldl, Json.insertField_nil, Json.insertField_before, Json.insertField_after,
      String.reduceLT, String.reduceNe, not_false_eq_true]
  constructor
  · intro p
    have hpath := hpath.decode_encode p.path
    have hstart := location.decode_encode p.start
    have hstop := location.decode_encode p.stop
    rw [hfields]
    change (RecordReader.start "CallPosition" _ false false _ >>= _) = _
    simp [RecordReader.start, RecordReader.checkFields, RecordReader.optional, RecordReader.required,
      RecordReader.finish, List.lookup_cons, Codec.ok_bind, check_eq_ok hpath, check_eq_ok hstart, check_eq_ok hstop,
      hpath, hstart, hstop]
  · intro p
    rw [hfields]
    apply IsPlain.object
    · simp [location.isPlain, (hpath.isPlain p.path).mono (Nat.zero_le 1)]
    · simp only [Json.ofFields, List.foldl, Json.insertField_nil, Json.insertField_after, String.reduceLT,
        String.reduceNe, not_false_eq_true]

theorem element :
  IsFaithful Element 3
  := by
  have hpath : IsFaithful (Option Path) 0 := path.option nofun
  have hfields (e : Element) : encode e = .object [
      ("call_position", encode e.callPosition), ("end_position", encode e.stop), ("kind", encode e.kind),
      ("module", encode e.module), ("name", encode e.name), ("path", encode e.path), ("role", encode e.role),
      ("start_position", encode e.start)] := by
    change Json.ofFields _ = _
    simp only [Json.ofFields, List.foldl, Json.insertField_nil, Json.insertField_before, Json.insertField_after,
      String.reduceLT, String.reduceNe, not_false_eq_true]
  constructor
  · intro e
    have hname := string.decode_encode e.name
    have hkind := string.decode_encode e.kind
    have hmodule := string.decode_encode e.module
    have hrole := role.decode_encode e.role
    have hpath := hpath.decode_encode e.path
    have hcall := callPosition.decode_encode e.callPosition
    have hstart := location.decode_encode e.start
    have hstop := location.decode_encode e.stop
    rw [hfields]
    change (RecordReader.start "CodeElement" _ false false _ >>= _) = _
    simp [RecordReader.start, RecordReader.checkFields, RecordReader.optional, RecordReader.required,
      RecordReader.finish, List.lookup_cons, Codec.ok_bind, check_eq_ok hname, check_eq_ok hkind, check_eq_ok hmodule,
      check_eq_ok hrole, check_eq_ok hpath, check_eq_ok hcall, check_eq_ok hstart, check_eq_ok hstop, hname, hkind,
      hmodule, hrole, hpath, hcall, hstart, hstop]
  · intro e
    have hplace (l : Location) := (location.isPlain l).mono (Nat.le_succ 1)
    have htext (s : String) := (string.isPlain s).mono (Nat.zero_le 2)
    rw [hfields]
    apply IsPlain.object
    · simp [callPosition.isPlain, hplace, htext, (hpath.isPlain e.path).mono (Nat.zero_le 2),
        (role.isPlain e.role).mono (Nat.zero_le 2)]
    · simp only [Json.ofFields, List.foldl, Json.insertField_nil, Json.insertField_after, String.reduceLT,
        String.reduceNe, not_false_eq_true]

end Codec.IsFaithful

end CallGraph
