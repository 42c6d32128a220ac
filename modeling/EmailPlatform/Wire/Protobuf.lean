import EmailPlatform.Js.Utf16
import EmailPlatform.Js.Utf8
import EmailPlatform.Wire.Message
import Mathlib.Algebra.Ring.Int.Defs
import Mathlib.Algebra.Ring.Nat

/-!
# EmailPlatform.Wire.Protobuf

**The wire format of Protocol Buffers**, as far as messages of numbers, flags and texts need it.
Numbers are base-128 varints of at most ten bytes, a negative one in 64-bit two's complement;
texts are UTF-8 behind their length. A reader of texts drops a byte order mark, so that a text
is kept if it is well formed and does not begin with one.

`protobufGrammar` says what bytes any peer may send: varints that are longer than they need to
be, numbers of 64 bits where 32 are read, and behind an unknown tag a value of any wire type,
groups within groups among them. `protobuf` is the writer and the reader, and keeps to it
(`protobuf_lawful`).
-/

namespace EmailPlatform.Wire

open Url

/-! ### Varints -/

/-- Seven bits a byte, the lowest first; all bytes but the last have the high bit set. `k` is the
number of bytes there may be after the first. -/
def varintBytes : ℕ → ℕ → Bytes
  | 0, n => [.ofNat n]
  | k + 1, n => if n < 128 then [.ofNat n] else .ofNat (n % 128 + 128) :: varintBytes k (n / 128)

/-- The number that the bytes begin with, and how many of them it takes. -/
def readVarint : ℕ → Bytes → Option (ℕ × ℕ)
  | _, [] => none
  | 0, b :: _ => if b.toNat < 128 then some (b.toNat, 1) else none
  | k + 1, b :: bs =>
    if b.toNat < 128 then some (b.toNat, 1)
    else do
      let (n, taken) ← readVarint k bs
      some (b.toNat - 128 + 128 * n, taken + 1)

/-- The bytes are a varint of `n`, and there are at most `k` after the first. Groups of zeros at
the end make it longer than it needs to be. -/
inductive Varint : ℕ → Bytes → ℕ → Prop
  | last {k : ℕ} {b : UInt8} : b.toNat < 128 → Varint k [b] b.toNat
  | more {k n : ℕ} {b : UInt8} {bytes : Bytes} : 128 ≤ b.toNat → Varint k bytes n →
      Varint (k + 1) (b :: bytes) (b.toNat - 128 + 128 * n)

theorem Varint.ne_nil {k n : ℕ} {bytes : Bytes} (h : Varint k bytes n) : bytes ≠ [] := by
  cases h <;> simp

/-- The reader takes a varint, whatever comes behind it. -/
theorem Varint.readVarint_append {k n : ℕ} {bytes : Bytes} (h : Varint k bytes n)
    (after : Bytes) : readVarint k (bytes ++ after) = some (n, bytes.length) := by
  induction h with
  | @last k b hb => cases k <;> simp [readVarint, hb]
  | @more k n b bytes hb _ ih =>
      simp [readVarint, ih, show ¬ b.toNat < 128 by omega]

/-- The writer writes varints. -/
theorem varint_varintBytes {k : ℕ} :
    ∀ {n : ℕ}, n < 128 ^ (k + 1) → Varint k (varintBytes k n) n := by
  induction k with
  | zero =>
      intro n hn
      have hbyte : (UInt8.ofNat n).toNat = n := UInt8.toNat_ofNat_of_lt' (show n < 256 by omega)
      have hlast : Varint 0 [UInt8.ofNat n] (UInt8.ofNat n).toNat := .last (by omega)
      rwa [hbyte] at hlast
  | succ k ih =>
      intro n hn
      rw [varintBytes]
      split
      · next hlt =>
        have hbyte : (UInt8.ofNat n).toNat = n := UInt8.toNat_ofNat_of_lt' (show n < 256 by omega)
        have hlast : Varint (k + 1) [UInt8.ofNat n] (UInt8.ofNat n).toNat := .last (by omega)
        rwa [hbyte] at hlast
      · next hge =>
        have hbyte : (UInt8.ofNat (n % 128 + 128)).toNat = n % 128 + 128 :=
          UInt8.toNat_ofNat_of_lt' (show n % 128 + 128 < 256 by omega)
        have hdiv : n / 128 < 128 ^ (k + 1) := by
          rw [Nat.div_lt_iff_lt_mul (by omega)]
          rwa [Nat.pow_succ] at hn
        have hmore := Varint.more (b := UInt8.ofNat (n % 128 + 128)) (by omega) (ih hdiv)
        rwa [hbyte, show n % 128 + 128 - 128 + 128 * (n / 128) = n by omega] at hmore

/-! ### The methods -/

/-- A varint of at most ten bytes. -/
def takeVarint : Read ℕ := fun r =>
  (readVarint 9 r.rest).map fun p => (p.1, r.advance p.2)

theorem Varint.takes {n : ℕ} {bytes : Bytes} (h : Varint 9 bytes n) :
    Takes takeVarint bytes n := by
  intro r hnext
  obtain ⟨after, hafter⟩ := hnext
  simp [takeVarint, ← hafter, h.readVarint_append after]

theorem Takes.map {α β : Type} {read : Read α} {bytes : Bytes} {a : α} (ht : Takes read bytes a)
    (f : α → β) : Takes (fun r => (read r).map (Prod.map f id)) bytes (f a) := by
  intro r hnext
  simp [ht r hnext]

/-- `n | 0`, where `n` is below `2 ^ 64`. -/
def toInt32 (n : ℕ) : ℤ := if n % 2 ^ 32 < 2 ^ 31 then n % 2 ^ 32 else n % 2 ^ 32 - 2 ^ 32

/-- `U+FEFF`. -/
def byteOrderMark : Char := '\uFEFF'

/-- `TextDecoder` leaves out a byte order mark. -/
def dropByteOrderMark : List Char → List Char
  | c :: cs => if c = byteOrderMark then cs else c :: cs
  | [] => []

/-- The bytes that begin with their number. -/
def takeDelimited : Read Bytes := fun r => do
  let (n, r) ← takeVarint r
  if n ≤ r.rest.length then some (r.rest.take n, r.advance n) else none

/-- `uint32()`. What is read is cut to 32 bits. -/
def protobufUint32 : Codec ℕ where
  write n := if n < 2 ^ 32 then some (varintBytes 9 n) else none
  read r := (takeVarint r).map (Prod.map (· % 2 ^ 32) id)

/-- The number and the wire type of a field are legal. -/
def takeTag : Read ℕ := fun r => do
  let (tag, r) ← protobufUint32.read r
  if tag >>> 3 ≠ 0 ∧ tag &&& 7 ≤ 5 then some (tag, r) else none

/-- All bytes with the high bit set, and one more; no limit here. -/
def skipVarint : Read Unit := fun r =>
  (r.rest.findIdx? (·.toNat < 128)).map fun i => ((), r.advance (i + 1))

/-- So many bytes. -/
def skipBytes (n : ℕ) : Read Unit := fun r =>
  if n ≤ r.rest.length then some ((), r.advance n) else none

/-- `skip(wireType, fieldNo)`. A group is passed over field by field to the tag at its end, which
has the number of the group if that is known. Every turn takes a tag, so that one turn more than
there are bytes is never needed. -/
def skipField : ℕ → ℕ → Option ℕ → Read Unit
  | 0, _, _, _ => none
  | fuel + 1, wireType, fieldNo, r =>
    match wireType with
    | 0 => skipVarint r
    | 1 => skipBytes 8 r
    | 2 => (takeDelimited r).map (Prod.map (fun _ => ()) id)
    | 3 => do
      let (tag, r) ← takeTag r
      if tag &&& 7 = 4 then
        if fieldNo.all (· = tag >>> 3) then some ((), r) else none
      else do
        let (_, r) ← skipField fuel (tag &&& 7) (some (tag >>> 3)) r
        skipField fuel 3 fieldNo r
    | 5 => skipBytes 4 r
    | _ => none

/-- The methods of the writer and the reader. -/
def protobuf : WireFormat JsString where
  uint32 := protobufUint32
  int32 := {
    write := fun v =>
      if -2 ^ 31 ≤ v ∧ v < 2 ^ 31 then some (varintBytes 9 (v % 2 ^ 64).toNat) else none
    read := fun r => (takeVarint r).map (Prod.map toInt32 id) }
  bool := {
    write := fun b => some (varintBytes 9 b.toNat)
    read := fun r => (takeVarint r).map (Prod.map (fun n => decide (n % 2 ^ 64 ≠ 0)) id) }
  string := {
    write := fun s => do
      let len ← protobufUint32.write (utf8Bytes s.chars).length
      some (len ++ utf8Bytes s.chars)
    read := fun r => do
      let (bytes, r) ← takeDelimited r
      let cs ← decodeUtf8 bytes
      some (JsString.ofChars (dropByteOrderMark cs), r) }
  skip w r := skipField (r.rest.length + 1) w none r

/-! ### The grammar -/

/-- A text that UTF-8 and its reader keep. -/
def PlainText (s : JsString) : Prop :=
  s.isWellFormed = true ∧ dropByteOrderMark s.chars = s.chars

instance (s : JsString) : Decidable (PlainText s) := inferInstanceAs (Decidable (_ ∧ _))

/-- The bytes are a varint of a number of 32 bits. -/
def SpellsUint32 (bytes : Bytes) (n : ℕ) : Prop := n < 2 ^ 32 ∧ Varint 9 bytes n

/-- `n` is what 64 bits are read as. -/
def SpellsInt32 (bytes : Bytes) (v : ℤ) : Prop :=
  ∃ n < 2 ^ 64, toInt32 n = v ∧ Varint 9 bytes n

@[inherit_doc SpellsInt32]
def SpellsBool (bytes : Bytes) (b : Bool) : Prop :=
  ∃ n < 2 ^ 64, decide (n ≠ 0) = b ∧ Varint 9 bytes n

/-- The bytes are the length of `body`, and `body`. -/
def SpellsDelimited (bytes body : Bytes) : Prop :=
  ∃ len, SpellsUint32 len body.length ∧ bytes = len ++ body

/-- What stands behind the tag `n`, by its wire type. A group goes to the tag at its end, and
before that come fields of any kind. -/
inductive Payload : ℕ → Bytes → Prop
  | varint {n v : ℕ} {bytes : Bytes} : n &&& 7 = 0 → v < 2 ^ 64 → Varint 9 bytes v →
      Payload n bytes
  | fixed64 {n : ℕ} {bytes : Bytes} : n &&& 7 = 1 → bytes.length = 8 → Payload n bytes
  | delimited {n : ℕ} {bytes body : Bytes} : n &&& 7 = 2 → SpellsDelimited bytes body →
      Payload n bytes
  | groupEnd {n : ℕ} {tag : Bytes} : n &&& 7 = 3 → 8 ≤ n → SpellsUint32 tag (n + 1) →
      Payload n tag
  | groupField {n k : ℕ} {tag value bytes : Bytes} : n &&& 7 = 3 → 8 ≤ k → SpellsUint32 tag k →
      Payload k value → Payload n bytes → Payload n (tag ++ (value ++ bytes))
  | fixed32 {n : ℕ} {bytes : Bytes} : n &&& 7 = 5 → bytes.length = 4 → Payload n bytes

/-- The bytes that a peer may send. -/
def protobufGrammar : WireGrammar JsString where
  uint32 := SpellsUint32
  int32 := SpellsInt32
  bool := SpellsBool
  string bytes s := PlainText s ∧ SpellsDelimited bytes (utf8Bytes s.chars)
  payload := Payload

/-! ### Every method keeps to it -/

theorem Varint.takes_skip {k n : ℕ} {bytes : Bytes} (h : Varint k bytes n) :
    Takes skipVarint bytes () := by
  have hall : ∀ after : Bytes, ((bytes ++ after).findIdx? (·.toNat < 128)).map (· + 1) =
      some bytes.length := by
    intro after
    induction h with
    | last hb => simp [List.findIdx?_cons, hb]
    | @more k n b bytes hb _ ih =>
        simp only [List.cons_append, List.findIdx?_cons, Nat.not_lt.mpr hb, decide_false,
          Bool.false_eq_true, if_false, ih, Option.map_some, List.length_cons]
  intro r hnext
  obtain ⟨after, hafter⟩ := hnext
  obtain ⟨i, hi, hlen⟩ := Option.map_eq_some_iff.mp (hall after)
  simp [skipVarint, ← hafter, hi, hlen]

theorem SpellsUint32.takes {n : ℕ} {bytes : Bytes} (h : SpellsUint32 bytes n) :
    Takes protobufUint32.read bytes n := by
  have ht := h.2.takes.map (· % 2 ^ 32)
  simp only [Nat.mod_eq_of_lt h.1] at ht
  exact ht

theorem protobufUint32_writes {n : ℕ} {bytes : Bytes}
    (hw : protobufUint32.write n = some bytes) : SpellsUint32 bytes n := by
  simp only [protobufUint32, Option.ite_none_right_eq_some, Option.some.injEq] at hw
  obtain ⟨hlt, rfl⟩ := hw
  exact ⟨hlt, varint_varintBytes (Nat.lt_trans hlt (by decide))⟩

theorem SpellsDelimited.takes {bytes body : Bytes} (h : SpellsDelimited bytes body) :
    Takes takeDelimited bytes body := by
  obtain ⟨len, hlen, rfl⟩ := h
  intro r hnext
  have hread := hlen.2.takes r ((List.prefix_append _ _).trans hnext)
  obtain ⟨after, hafter⟩ := BinaryReader.prefix_advance hnext
  have hfit : body.length ≤ (r.advance len.length).rest.length := by
    rw [← hafter, List.length_append]
    omega
  simp only [takeDelimited, hread, Option.bind_eq_bind, Option.bind_some, if_pos hfit]
  rw [← hafter, List.take_left, BinaryReader.advance_advance, List.length_append]

theorem toInt32_emod {v : ℤ} (hv : -2 ^ 31 ≤ v ∧ v < 2 ^ 31) :
    toInt32 (v % 2 ^ 64).toNat = v := by
  unfold toInt32
  split <;> omega

theorem takes_takeTag {n : ℕ} {bytes : Bytes} (h : SpellsUint32 bytes n) (hnumber : 8 ≤ n)
    (htype : n &&& 7 ≤ 5) : Takes takeTag bytes n := by
  intro r hnext
  have hshift : n >>> 3 ≠ 0 := by
    rw [Nat.shiftRight_eq_div_pow]
    omega
  simp only [takeTag, h.takes r hnext, Option.bind_eq_bind, Option.bind_some]
  rw [if_pos ⟨hshift, htype⟩]

theorem takes_skipBytes {n : ℕ} {bytes : Bytes} (h : bytes.length = n) :
    Takes (skipBytes n) bytes () := by
  intro r hnext
  rw [skipBytes, if_pos (h ▸ hnext.length_le), h]

/-- The tag at the end of a group has the number of the group. -/
theorem groupEnd_tag {n : ℕ} (htype : n &&& 7 = 3) :
    (n + 1) &&& 7 = 4 ∧ (n + 1) >>> 3 = n >>> 3 := by
  rw [Nat.and_two_pow_sub_one_eq_mod _ 3] at htype ⊢
  rw [Nat.shiftRight_eq_div_pow, Nat.shiftRight_eq_div_pow]
  omega

/-- No field begins with the tag at the end of a group. -/
theorem Payload.wireType {n : ℕ} {bytes : Bytes} (h : Payload n bytes) :
    n &&& 7 ≤ 5 ∧ n &&& 7 ≠ 4 := by
  cases h <;> omega

/-- **What may stand behind an unknown tag is skipped.** The induction is on the payload: a group
takes a turn for every field in it, and each of them another skip. -/
theorem Payload.takes {n : ℕ} {bytes : Bytes} (h : Payload n bytes) :
    ∀ {fuel : ℕ} {fieldNo : Option ℕ}, bytes.length ≤ fuel → (∀ no ∈ fieldNo, no = n >>> 3) →
      Takes (skipField (fuel + 1) (n &&& 7) fieldNo) bytes () := by
  induction h with
  | varint htype _ hv =>
      intro fuel fieldNo _ _
      rw [htype]
      exact hv.takes_skip
  | fixed64 htype hlen =>
      intro fuel fieldNo _ _
      rw [htype]
      exact takes_skipBytes hlen
  | delimited htype hbody =>
      intro fuel fieldNo _ _
      rw [htype]
      exact hbody.takes.map fun _ => ()
  | @groupEnd n tag htype hnumber htag =>
      intro fuel fieldNo _ hno r hnext
      have hend := groupEnd_tag htype
      have hread := takes_takeTag htag (by omega) (by omega) r hnext
      have hsame : fieldNo.all (· = n >>> 3) = true := by
        cases fieldNo with
        | none => rfl
        | some no => simpa using hno no rfl
      simp only [htype, skipField, hread, Option.bind_eq_bind, Option.bind_some, hend, hsame,
        if_true]
  | @groupField n k tag value bytes htype hnumber htag hvalue _ ihvalue ihbytes =>
      intro fuel fieldNo hfuel hno r hnext
      have hpos := List.length_pos_iff.mpr htag.2.ne_nil
      simp only [List.length_append] at hfuel
      -- The tag of the field pays for the turn.
      cases fuel with
      | zero => omega
      | succ fuel =>
          have hvalues := BinaryReader.prefix_advance hnext
          have hread := takes_takeTag htag hnumber hvalue.wireType.1 r
            ((List.prefix_append _ _).trans hnext)
          have hskip := @ihvalue fuel (some (k >>> 3)) (by omega) (by simp) _
            ((List.prefix_append _ _).trans hvalues)
          have hrest := @ihbytes fuel fieldNo (by omega) hno _
            (BinaryReader.prefix_advance hvalues)
          rw [htype] at hrest ⊢
          rw [skipField]
          simp only [hread, Option.bind_eq_bind, Option.bind_some, hvalue.wireType.2, if_false,
            hskip, hrest]
          simp [BinaryReader.advance_advance, Nat.add_assoc]
  | fixed32 htype hlen =>
      intro fuel fieldNo _ _
      rw [htype]
      exact takes_skipBytes hlen

/-- The methods write what the grammar has, and read all of it. -/
theorem protobuf_lawful : protobuf.Lawful protobufGrammar PlainText where
  uint32 := ⟨fun _ => protobufUint32_writes, SpellsUint32.takes⟩
  uint32_ne_nil h := h.2.ne_nil
  int32 := {
    writes := fun {v bytes} _ hw => by
      simp only [protobuf, Option.ite_none_right_eq_some, Option.some.injEq] at hw
      obtain ⟨hv, rfl⟩ := hw
      exact ⟨_, by omega, toInt32_emod hv, varint_varintBytes (by omega)⟩
    reads := fun {v bytes} h => by
      obtain ⟨n, -, rfl, hn⟩ := h
      exact hn.takes.map toInt32 }
  bool := {
    writes := fun {b bytes} _ hw => by
      obtain rfl : varintBytes 9 b.toNat = bytes := Option.some.inj hw
      have hlt : b.toNat < 2 ^ 64 := by cases b <;> decide
      exact ⟨_, hlt, by cases b <;> rfl, varint_varintBytes (Nat.lt_trans hlt (by decide))⟩
    reads := fun {b bytes} h => by
      obtain ⟨n, hlt, rfl, hn⟩ := h
      have ht := hn.takes.map fun n => decide (n % 2 ^ 64 ≠ 0)
      rwa [Nat.mod_eq_of_lt hlt] at ht }
  string := {
    writes := fun {s bytes} hs hw => by
      simp only [protobuf, Option.bind_eq_bind, Option.bind_eq_some_iff, Option.some.injEq] at hw
      obtain ⟨len, hlen, rfl⟩ := hw
      exact ⟨hs, len, protobufUint32_writes hlen, rfl⟩
    reads := fun {s bytes} h r hnext => by
      have hread := h.2.takes r hnext
      simp [protobuf, hread, decodeUtf8_utf8Bytes, h.1.2, JsString.ofChars_chars h.1.1] }
  skip h r hnext := h.takes hnext.length_le (by simp) r hnext

end EmailPlatform.Wire
