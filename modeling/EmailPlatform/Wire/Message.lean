import Mathlib.Data.Int.Notation
import Mathlib.Data.List.Basic
import Mathlib.Tactic.Common

/-!
# EmailPlatform.Wire.Message

**Messages as tagged records.** A message is written field by field, each value behind its tag,
and read by a loop that takes one tag after the other and skips the values it does not know.
Which methods write and read numbers and texts is a parameter, `WireFormat`, and so is what bytes
stand for which of them, `WireGrammar`; the messages are given by their fields, `MessageSchema`.

What the bytes of a message are is said once, without the writer and the reader: `Spells` is the
grammar of a message type, in which fields come in any order and any number, with unknown ones
between them. The writer keeps to it (`MessageSchema.spells_encode`), and the reader understands
all of it (`MessageSchema.loop_of_spells`). The proof is one induction on the grammar, over the
turns of the loop.
-/

namespace EmailPlatform.Wire

/-- `Uint8Array` -/
abbrev Bytes := List UInt8

/-! ### Readers -/

/-- A `BinaryReader`: its bytes, and where it stands. -/
structure BinaryReader where
  buf : Bytes
  pos : ℕ
  deriving DecidableEq

/-- What is still to be read. -/
def BinaryReader.rest (r : BinaryReader) : Bytes := r.buf.drop r.pos

/-- The reader, so many bytes on. -/
def BinaryReader.advance (r : BinaryReader) (n : ℕ) : BinaryReader := { r with pos := r.pos + n }

@[simp] theorem BinaryReader.pos_advance (r : BinaryReader) (n : ℕ) :
    (r.advance n).pos = r.pos + n := rfl

theorem BinaryReader.advance_advance (r : BinaryReader) (m n : ℕ) :
    (r.advance m).advance n = r.advance (m + n) := by
  simp [advance, Nat.add_assoc]

@[simp] theorem BinaryReader.advance_zero (r : BinaryReader) : r.advance 0 = r := rfl

/-- Behind the first part of what comes next stands the second. -/
theorem BinaryReader.prefix_advance {r : BinaryReader} {b₁ b₂ : Bytes}
    (h : b₁ ++ b₂ <+: r.rest) : b₂ <+: (r.advance b₁.length).rest := by
  obtain ⟨after, hafter⟩ := h
  refine ⟨after, ?_⟩
  rw [rest, advance, ← List.drop_drop, show r.buf.drop r.pos = _ from hafter.symm,
    List.append_assoc, List.drop_left]

/-- A method of the reader. `none` is an exception. -/
abbrev Read (α : Type) := BinaryReader → Option (α × BinaryReader)

/-- Wherever `bytes` come next, `read` takes these and no more, for `a`. -/
def Takes {α : Type} (read : Read α) (bytes : Bytes) (a : α) : Prop :=
  ∀ r : BinaryReader, bytes <+: r.rest → read r = some (a, r.advance bytes.length)

/-! ### Codecs -/

/-- How the values of a type are written and read. -/
structure Codec (α : Type) where
  /-- The bytes that are appended, or an exception. -/
  write : α → Option Bytes
  read : Read α

/-- What bytes stand for which value, apart from any codec. -/
structure Format (α : Type) where
  /-- The values that the format can express. -/
  Kept : α → Prop
  Spelled : Bytes → α → Prop

/-- The codec writes in the format, and reads all of it. -/
structure Codec.Implements {α : Type} (c : Codec α) (F : Format α) : Prop where
  writes : ∀ {a bytes}, F.Kept a → c.write a = some bytes → F.Spelled bytes a
  reads : ∀ {a bytes}, F.Spelled bytes a → Takes c.read bytes a

/-- What bytes stand for which numbers, flags and texts of type `S`. One value may be spelled in
several ways. -/
structure WireGrammar (S : Type) where
  uint32 : Bytes → ℕ → Prop
  int32 : Bytes → ℤ → Prop
  bool : Bytes → Bool → Prop
  string : Bytes → S → Prop
  /-- What may stand behind a tag that nobody knows. -/
  payload : ℕ → Bytes → Prop

/-- The methods of the writer and the reader for texts of type `S`. -/
structure WireFormat (S : Type) where
  uint32 : Codec ℕ
  int32 : Codec ℤ
  bool : Codec Bool
  string : Codec S
  /-- `skip`, by the wire type. -/
  skip : ℕ → Read Unit

variable {S M : Type}

/-- A length, and as many bytes. -/
inductive WireGrammar.Delimited (G : WireGrammar S) : Bytes → Bytes → Prop
  | mk {len body : Bytes} : G.uint32 len body.length → Delimited G (len ++ body) body

/-- The methods write in the grammar, texts of the kind `Plain` at least, and read all of it. -/
structure WireFormat.Lawful (fmt : WireFormat S) (G : WireGrammar S) (Plain : S → Prop) :
    Prop where
  uint32 : fmt.uint32.Implements ⟨fun _ => True, G.uint32⟩
  /-- A tag takes a byte at least. -/
  uint32_ne_nil : ∀ {bytes n}, G.uint32 bytes n → bytes ≠ []
  int32 : fmt.int32.Implements ⟨fun _ => True, G.int32⟩
  bool : fmt.bool.Implements ⟨fun _ => True, G.bool⟩
  string : fmt.string.Implements ⟨Plain, G.string⟩
  /-- The method is told no more of the tag than its wire type. -/
  skip : ∀ {n bytes}, G.payload n bytes → Takes (fmt.skip (n &&& 7)) bytes ()

/-! ### Messages -/

/-- A field of a message: its values as they are written, and what a value that is read does to
the message. -/
structure FieldFns (M : Type) where
  {Value : Type}
  tag : ℕ
  codec : Codec Value
  format : Format Value
  values : M → List Value
  put : Value → M → M

/-- A property of a record. -/
structure Lens (M α : Type) where
  get : M → α
  set : α → M → M
  get_set : ∀ a m, get (set a m) = a := by intros; rfl
  set_get : ∀ m, set (get m) m = m := by intros; rfl
  set_set : ∀ a b m, set a (set b m) = set a m := by intros; rfl

/-- `if (message.field !== d) writer.….value(message.field)`. -/
def FieldFns.implicit {α : Type} [DecidableEq α] (tag : ℕ) (codec : Codec α) (format : Format α)
    (d : α) (ℓ : Lens M α) : FieldFns M where
  tag := tag
  codec := codec
  format := format
  values m := if ℓ.get m ≠ d then [ℓ.get m] else []
  put := ℓ.set

/-- `if (message.field !== undefined) writer.….value(message.field)`. -/
def FieldFns.optional {α : Type} (tag : ℕ) (codec : Codec α) (format : Format α)
    (ℓ : Lens M (Option α)) : FieldFns M where
  tag := tag
  codec := codec
  format := format
  values m := (ℓ.get m).toList
  put a := ℓ.set (some a)

/-- `for (const v of message.field) writer.….value(v)`, read with `message.field.push(…)`. -/
def FieldFns.repeated {α : Type} (tag : ℕ) (codec : Codec α) (format : Format α)
    (ℓ : Lens M (List α)) : FieldFns M where
  tag := tag
  codec := codec
  format := format
  values := ℓ.get
  put a m := ℓ.set (ℓ.get m ++ [a]) m

/-- The values of a field of `m` are read into `acc`. -/
def FieldFns.copy (f : FieldFns M) (m acc : M) : M :=
  (f.values m).foldl (fun acc a => f.put a acc) acc

/-- What is left of `a` when `b` is read over it; the default `d` is not written. -/
def readOver {α : Type} [DecidableEq α] (d a b : α) : α := if b = d then a else b

@[simp] theorem readOver_default {α : Type} [DecidableEq α] (d b : α) : readOver d d b = b := by
  unfold readOver
  split
  · next heq => exact heq.symm
  · rfl

theorem FieldFns.copy_implicit {α : Type} [DecidableEq α] {tag : ℕ} {codec : Codec α}
    {format : Format α} {d : α} {ℓ : Lens M α} {m acc : M} :
    (FieldFns.implicit tag codec format d ℓ).copy m acc =
      ℓ.set (readOver d (ℓ.get acc) (ℓ.get m)) acc := by
  by_cases hm : ℓ.get m = d
  · simp [FieldFns.copy, FieldFns.implicit, readOver, hm, ℓ.set_get]
  · simp [FieldFns.copy, FieldFns.implicit, readOver, hm]

theorem FieldFns.copy_optional {α : Type} {tag : ℕ} {codec : Codec α} {format : Format α}
    {ℓ : Lens M (Option α)} {m acc : M} :
    (FieldFns.optional tag codec format ℓ).copy m acc = ℓ.set ((ℓ.get m).or (ℓ.get acc)) acc := by
  cases hm : ℓ.get m with
  | none => simp [FieldFns.copy, FieldFns.optional, hm, ℓ.set_get]
  | some a => simp [FieldFns.copy, FieldFns.optional, hm]

/-- The values of a list are appended. -/
theorem FieldFns.copy_repeated {α : Type} {tag : ℕ} {codec : Codec α} {format : Format α}
    {ℓ : Lens M (List α)} {m acc : M} :
    (FieldFns.repeated tag codec format ℓ).copy m acc = ℓ.set (ℓ.get acc ++ ℓ.get m) acc := by
  have hall : ∀ (as : List α) (acc : M), as.foldl (fun acc a => ℓ.set (ℓ.get acc ++ [a]) acc) acc =
      ℓ.set (ℓ.get acc ++ as) acc := by
    intro as
    induction as with
    | nil => intro acc; simp [ℓ.set_get]
    | cons a as ih =>
        intro acc
        rw [List.foldl_cons, ih, ℓ.get_set, ℓ.set_set, List.append_assoc]
        rfl
  exact hall _ acc

/-- The fields in the order of the writer, and the message that the reader starts from. -/
structure MessageSchema (M : Type) where
  createBase : M
  fields : List (FieldFns M)

/-- `MessageFns`. The length of `decode` is that of a message inside another. -/
structure MessageFns (M : Type) where
  encode : M → Option Bytes
  decode : Option ℕ → Read M

/-- `fns.encode(message, writer.fork()).join()`, and `fns.decode(reader, reader.uint32())`. -/
def MessageFns.delimited (fmt : WireFormat S) (fns : MessageFns M) : Codec M where
  write m := do
    let body ← fns.encode m
    let len ← fmt.uint32.write body.length
    some (len ++ body)
  read r := do
    let (n, r) ← fmt.uint32.read r
    fns.decode (some n) r

/-- A message of the format `F`, behind its length. -/
def Format.delimited (G : WireGrammar S) (F : Format M) : Format M where
  Kept := F.Kept
  Spelled bytes m := ∃ body, G.Delimited bytes body ∧ F.Spelled body m

/-- Bytes that are all of a message: its length is given, or they are all that is left. -/
structure MessageFns.Implements (fns : MessageFns M) (F : Format M) : Prop where
  writes : ∀ {m bytes}, F.Kept m → fns.encode m = some bytes → F.Spelled bytes m
  reads : ∀ {m bytes r}, F.Spelled bytes m → bytes <+: r.rest →
    fns.decode (some bytes.length) r = some (m, r.advance bytes.length)
  readsAll : ∀ {m bytes}, F.Spelled bytes m →
    fns.decode none ⟨bytes, 0⟩ = some (m, ⟨bytes, bytes.length⟩)

/-- The functions of a message type, and its format. -/
structure GeneratedMessage (M : Type) where
  fns : MessageFns M
  format : Format M

/-- The functions write in the format of the message, and read all of it. -/
def GeneratedMessage.Lawful (g : GeneratedMessage M) : Prop := g.fns.Implements g.format

/-- `Message.decode(bytes)`. -/
def GeneratedMessage.decode (g : GeneratedMessage M) (bytes : Bytes) : Option M :=
  (g.fns.decode none ⟨bytes, 0⟩).map Prod.fst

theorem GeneratedMessage.Lawful.decode_eq {g : GeneratedMessage M} (hg : g.Lawful) {m : M}
    {bytes : Bytes} (hs : g.format.Spelled bytes m) : g.decode bytes = some m := by
  rw [GeneratedMessage.decode, hg.readsAll hs]
  rfl

namespace MessageSchema

variable (fmt : WireFormat S) (G : WireGrammar S) (σ : MessageSchema M)

/-- A value behind its tag. -/
def record (w : (f : FieldFns M) × f.Value) : Option Bytes := do
  let tag ← fmt.uint32.write w.1.tag
  let value ← w.1.codec.write w.2
  some (tag ++ value)

/-- What is written for a message. -/
def writes (m : M) : List ((f : FieldFns M) × f.Value) :=
  σ.fields.flatMap fun f => (f.values m).map (Sigma.mk f)

/-- `encode`. -/
def encode (m : M) : Option Bytes := ((σ.writes m).mapM (record fmt)).map List.flatten

/-- The field that the `switch` finds: its case is the number of the tag, and its tag is this
one. -/
def case? (tag : ℕ) : Option (FieldFns M) :=
  (σ.fields.find? fun f => f.tag >>> 3 = tag >>> 3).filter fun f => f.tag = tag

/-- The loop of `decode`, to the position `stop`. Every turn takes a tag, so that `fuel` bytes
are enough for as many turns. -/
def loop (stop : ℕ) : ℕ → M → Read M
  | 0, m, r => if r.pos < stop then none else some (m, r)
  | fuel + 1, m, r =>
    if r.pos < stop then do
      let (tag, r) ← fmt.uint32.read r
      match σ.case? tag with
      | some f => do
        let (a, r) ← f.codec.read r
        loop stop fuel (f.put a m) r
      | none =>
        if tag &&& 7 = 4 ∨ tag = 0 then some (m, r)
        else do
          let (_, r) ← fmt.skip (tag &&& 7) r
          loop stop fuel m r
    else some (m, r)

/-- `decode`. -/
def decode (length : Option ℕ) (r : BinaryReader) : Option (M × BinaryReader) :=
  let stop := match length with
    | some length => r.pos + length
    | none => r.buf.length
  σ.loop fmt stop (stop - r.pos) σ.createBase r

/-- The generated object of the message. -/
def fns : MessageFns M := ⟨σ.encode fmt, σ.decode fmt⟩

/-! ### The grammar -/

/-- The values are read one after the other. -/
def puts (ws : List ((f : FieldFns M) × f.Value)) (m : M) : M :=
  ws.foldl (fun m w => w.1.put w.2 m) m

/-- The bytes have these values behind the tags of their fields, and anything else behind other
tags. -/
inductive Spells : List ((f : FieldFns M) × f.Value) → Bytes → Prop
  | nil : Spells [] []
  | known {w : (f : FieldFns M) × f.Value} {tag value : Bytes}
      {ws : List ((f : FieldFns M) × f.Value)} {bytes : Bytes} :
      w.1 ∈ σ.fields → G.uint32 tag w.1.tag → w.1.format.Spelled value w.2 →
      Spells ws bytes → Spells (w :: ws) (tag ++ (value ++ bytes))
  | unknown {n : ℕ} {tag value : Bytes} {ws : List ((f : FieldFns M) × f.Value)} {bytes : Bytes} :
      G.uint32 tag n → σ.case? n = none → n ≠ 0 → n &&& 7 ≠ 4 → G.payload n value →
      Spells ws bytes → Spells ws (tag ++ (value ++ bytes))

/-- The format of a message: the order of the fields is free, a later value goes over an earlier
one, and what is unknown is nothing. -/
def format : Format M where
  Kept m := ∀ w ∈ σ.writes m, w.1.format.Kept w.2
  Spelled bytes m := ∃ ws, σ.Spells G ws bytes ∧ puts ws σ.createBase = m

/-- The message, by its functions and its format. -/
def message : GeneratedMessage M := ⟨σ.fns fmt, σ.format G⟩

/-- A message into which another one has been read. -/
def merge (m₁ m₂ : M) : M := puts (σ.writes m₂) m₁

/-- The fields are told apart, and the message is made of what is written for it. -/
structure Lawful : Prop where
  distinct : (σ.fields.map fun f => f.tag >>> 3).Nodup
  implements : ∀ f ∈ σ.fields, f.codec.Implements f.format
  restores : ∀ m, σ.merge σ.createBase m = m

variable {fmt G σ} {Plain : S → Prop}

theorem merge_eq (m₁ m₂ : M) :
    σ.merge m₁ m₂ = σ.fields.foldl (fun acc f => f.copy m₂ acc) m₁ := by
  rw [merge, puts, writes, List.foldl_flatMap]
  simp only [List.foldl_map]
  rfl

theorem kept_iff {m : M} : (σ.format G).Kept m ↔
    ∀ f ∈ σ.fields, ∀ a ∈ f.values m, f.format.Kept a := by
  simp only [format, writes, List.mem_flatMap, List.mem_map]
  constructor
  · exact fun h f hf a ha => h ⟨f, a⟩ ⟨f, hf, a, ha, rfl⟩
  · intro h w hw
    obtain ⟨f, hf, a, ha, rfl⟩ := hw
    exact h f hf a ha

theorem puts_append (ws₁ ws₂ : List ((f : FieldFns M) × f.Value)) (m : M) :
    puts (ws₁ ++ ws₂) m = puts ws₂ (puts ws₁ m) := List.foldl_append

theorem Spells.append {ws₁ ws₂ : List ((f : FieldFns M) × f.Value)} {b₁ b₂ : Bytes}
    (h₁ : σ.Spells G ws₁ b₁) (h₂ : σ.Spells G ws₂ b₂) :
    σ.Spells G (ws₁ ++ ws₂) (b₁ ++ b₂) := by
  induction h₁ with
  | nil => exact h₂
  | known hf htag hvalue _ ih =>
      rw [List.append_assoc, List.append_assoc]
      exact .known hf htag hvalue ih
  | unknown htag hcase hne hgroup hpayload _ ih =>
      rw [List.append_assoc, List.append_assoc]
      exact .unknown htag hcase hne hgroup hpayload ih

/-- A field is the case of its tag. -/
theorem Lawful.case?_eq (hσ : σ.Lawful) {f : FieldFns M} (hf : f ∈ σ.fields) :
    σ.case? f.tag = some f := by
  have hfind : ∀ fs : List (FieldFns M), (fs.map fun f => f.tag >>> 3).Nodup → f ∈ fs →
      fs.find? (fun g => g.tag >>> 3 = f.tag >>> 3) = some f := by
    intro fs
    induction fs with
    | nil => simp
    | cons g fs ih =>
        intro hnodup hmem
        rw [List.map_cons, List.nodup_cons] at hnodup
        rcases List.mem_cons.mp hmem with rfl | hmem
        · simp
        · have hne : g.tag >>> 3 ≠ f.tag >>> 3 := fun heq =>
            hnodup.1 (heq ▸ List.mem_map_of_mem hmem)
          rw [List.find?_cons_of_neg (by simpa using hne)]
          exact ih hnodup.2 hmem
  simp [case?, hfind σ.fields hσ.distinct hf]

/-- **The reader understands the grammar.** Wherever bytes of the grammar come next, the loop
takes them in, and stands behind them with the message that their values make. -/
theorem loop_of_spells (hfmt : fmt.Lawful G Plain) (hσ : σ.Lawful)
    {ws : List ((f : FieldFns M) × f.Value)} {bytes : Bytes} (hs : σ.Spells G ws bytes) :
    ∀ {stop fuel : ℕ} {m : M} {r : BinaryReader}, bytes <+: r.rest →
      stop = r.pos + bytes.length → bytes.length ≤ fuel →
      σ.loop fmt stop fuel m r = some (puts ws m, r.advance bytes.length) := by
  induction hs with
  | nil =>
      intro stop fuel m r _ hstop _
      cases fuel <;> simp [loop, hstop, puts]
  | @known w tag value ws bytes hf htag hvalue _ ih =>
      intro stop fuel m r hnext hstop hfuel
      have hpos := List.length_pos_iff.mpr (hfmt.uint32_ne_nil htag)
      simp only [List.length_append] at hstop hfuel
      cases fuel with
      | zero => omega
      | succ fuel =>
          have hvalues := BinaryReader.prefix_advance hnext
          have hread := hfmt.uint32.reads htag r ((List.prefix_append _ _).trans hnext)
          have hval := (hσ.implements w.1 hf).reads hvalue _
            ((List.prefix_append _ _).trans hvalues)
          rw [loop, if_pos (by omega)]
          simp only [hread, Option.bind_eq_bind, Option.bind_some, hσ.case?_eq hf, hval]
          rw [ih (BinaryReader.prefix_advance hvalues) (by simp; omega) (by omega)]
          simp [BinaryReader.advance_advance, puts, Nat.add_assoc]
  | @unknown n tag value ws bytes htag hcase hne hgroup hpayload _ ih =>
      intro stop fuel m r hnext hstop hfuel
      have hpos := List.length_pos_iff.mpr (hfmt.uint32_ne_nil htag)
      simp only [List.length_append] at hstop hfuel
      cases fuel with
      | zero => omega
      | succ fuel =>
          have hvalues := BinaryReader.prefix_advance hnext
          have hread := hfmt.uint32.reads htag r ((List.prefix_append _ _).trans hnext)
          have hskip := hfmt.skip hpayload _ ((List.prefix_append _ _).trans hvalues)
          rw [loop, if_pos (by omega)]
          simp only [hread, Option.bind_eq_bind, Option.bind_some, hcase, hgroup, hne, or_self,
            if_false, hskip]
          rw [ih (BinaryReader.prefix_advance hvalues) (by simp; omega) (by omega)]
          simp [BinaryReader.advance_advance, Nat.add_assoc]

/-- The writer keeps to the grammar. -/
theorem spells_encode (hfmt : fmt.Lawful G Plain) (hσ : σ.Lawful) {m : M} {bytes : Bytes}
    (hkept : (σ.format G).Kept m)
    (henc : σ.encode fmt m = some bytes) : σ.Spells G (σ.writes m) bytes := by
  have hall : ∀ {ws : List ((f : FieldFns M) × f.Value)} {recs : List Bytes},
      (∀ w ∈ ws, w.1 ∈ σ.fields ∧ w.1.format.Kept w.2) → ws.mapM (record fmt) = some recs →
        σ.Spells G ws recs.flatten := by
    intro ws
    induction ws with
    | nil =>
        intro recs _ hrecs
        obtain rfl : [] = recs := by simpa using hrecs
        exact .nil
    | cons w ws ih =>
        intro recs hws hrecs
        obtain ⟨hf, hkept⟩ := hws w List.mem_cons_self
        simp only [List.mapM_cons, Option.bind_eq_bind, Option.bind_eq_some_iff, Option.pure_def,
          Option.some.injEq] at hrecs
        obtain ⟨first, hfirst, rest, hrest, rfl⟩ := hrecs
        simp only [record, Option.bind_eq_bind, Option.bind_eq_some_iff, Option.some.injEq]
          at hfirst
        obtain ⟨tag, htag, value, hvalue, rfl⟩ := hfirst
        rw [List.flatten_cons, List.append_assoc]
        exact .known hf (hfmt.uint32.writes trivial htag) ((hσ.implements _ hf).writes hkept hvalue)
          (ih (fun w hw => hws w (List.mem_cons_of_mem _ hw)) hrest)
  obtain ⟨recs, hrecs, rfl⟩ := Option.map_eq_some_iff.mp henc
  refine hall (fun w hw => ⟨?_, hkept w hw⟩) hrecs
  obtain ⟨f, hf, a, -, rfl⟩ := by simpa [writes] using hw
  exact hf

/-- The generated functions implement their format. -/
theorem message_lawful (hfmt : fmt.Lawful G Plain) (hσ : σ.Lawful) : (σ.message fmt G).Lawful where
  writes hkept henc := ⟨_, spells_encode hfmt hσ hkept henc, hσ.restores _⟩
  reads {m bytes r} hspelled hnext := by
    obtain ⟨ws, hs, rfl⟩ := hspelled
    exact loop_of_spells hfmt hσ hs hnext rfl (by simp)
  readsAll {m bytes} hspelled := by
    obtain ⟨ws, hs, rfl⟩ := hspelled
    have hread : σ.loop fmt bytes.length bytes.length σ.createBase ⟨bytes, 0⟩ = _ :=
      loop_of_spells hfmt hσ hs (by simp [BinaryReader.rest]) (by simp) (Nat.le_refl _)
    simpa [message, fns, decode, BinaryReader.advance] using hread

/-- What is written behind a message is read into it. -/
theorem spelled_append (hfmt : fmt.Lawful G Plain) (hσ : σ.Lawful) {m₁ m₂ : M} {b₁ b₂ : Bytes}
    (h₁ : (σ.format G).Spelled b₁ m₁) (hkept : (σ.format G).Kept m₂)
    (h₂ : σ.encode fmt m₂ = some b₂) : (σ.format G).Spelled (b₁ ++ b₂) (σ.merge m₁ m₂) := by
  obtain ⟨ws, hs, rfl⟩ := h₁
  exact ⟨ws ++ σ.writes m₂, hs.append (spells_encode hfmt hσ hkept h₂), puts_append ..⟩

end MessageSchema

/-- A message inside another one. -/
theorem MessageFns.Implements.delimited {fmt : WireFormat S} {G : WireGrammar S}
    {Plain : S → Prop} (hfmt : fmt.Lawful G Plain) {fns : MessageFns M} {F : Format M}
    (hfns : fns.Implements F) : (fns.delimited fmt).Implements (F.delimited G) where
  writes {m bytes} hkept hw := by
    simp only [MessageFns.delimited, Option.bind_eq_bind, Option.bind_eq_some_iff,
      Option.some.injEq] at hw
    obtain ⟨body, henc, len, hlen, rfl⟩ := hw
    exact ⟨body, .mk (hfmt.uint32.writes trivial hlen), hfns.writes hkept henc⟩
  reads {m bytes} hspelled r hnext := by
    obtain ⟨body, ⟨hlen⟩, hbody⟩ := hspelled
    have hread := hfmt.uint32.reads hlen r ((List.prefix_append _ _).trans hnext)
    simp only [MessageFns.delimited, hread, Option.bind_eq_bind, Option.bind_some]
    rw [hfns.reads hbody (BinaryReader.prefix_advance hnext), BinaryReader.advance_advance,
      List.length_append]

end EmailPlatform.Wire
