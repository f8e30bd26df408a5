import Oroch.IntegerArray

/-!
# What is printed about groups

The stream operator of the metadata prints the encoding as a number, the origin as a value
of its type and the width. What is printed for a group comes from its bytes alone: it is
read into cleared metadata, and the fields that an encoding does not carry are never set
in selected ones, so the lines printed are those of the selections.
-/

namespace Oroch

open Cursor

/-- The characters of a literal. -/
def text (s : String) : Bytes := s.toList.map fun c => BitVec.ofNat 8 c.toNat

/-- A number in decimal notation, the format of a new stream. -/
def decimal (n : Int) : Bytes := text (toString n)

/-- `os << v`; the integers of one byte are character types. -/
def IntType.print (T : IntType) (v : T.Original) : Bytes :=
  if T.width = .w8 then [v.setWidth 8] else decimal (T.toInt v)

/-- `operator<<` -/
def Metadata.print {T : IntType} (m : Metadata T) : Bytes :=
  text "encoding: " ++ decimal m.valueDesc.encoding.toByte.toNat ++
    (text ", origin: " ++ T.print m.valueDesc.origin ++
      (text ", nbits: " ++ decimal m.valueDesc.nbits))

example : (Metadata.fresh int32).print = text "encoding: 1, origin: 0, nbits: 0" := by
  decide +kernel

namespace IntegerGroup

variable {T : IntType}

/-- `decode` into metadata. -/
def decodeMetadata (self : IntegerGroup T) (m : Metadata T) : Outcome (Metadata T) := do
  match self.data with
  | none => .error .undefined
  | some data =>
    let (m, _) ← (Metadata.decode m).run data
    pure m

def info (self : IntegerGroup T) : Outcome Bytes := do
  let m ← self.decodeMetadata (Metadata.fresh T)
  pure (m.print ++ text "\n")

end IntegerGroup

/-- `group_info` -/
def IntegerArray.groupInfo {T : IntType} (self : IntegerArray T) : Outcome Bytes := do
  let lines ← self.groups.mapM IntegerGroup.info
  pure lines.flatten

/-- The fields that the encoding does not carry are zero. -/
structure Metadata.Plain {T : IntType} (m : Metadata T) : Prop where
  origin : m.valueDesc.encoding.hasOrigin = false → m.valueDesc.origin = 0
  nbits : m.valueDesc.encoding.hasNbits = false → m.valueDesc.nbits = 0

namespace IntegerCodec

variable {T : IntType}

theorem selectBasic_plain (src : List T.Original) :
    Metadata.Plain { Metadata.fresh T with
      valueDesc := selectBasic (Metadata.fresh T).valueDesc (IntegerStats.collect src) src } := by
  have taken := Cheapest.select_mem cost
    (normal (Metadata.fresh T).valueDesc (IntegerStats.collect src))
    (candidates (IntegerStats.collect src) src)
  rw [← selectBasic_eq] at taken
  simp only [candidates, List.mem_cons, List.not_mem_nil, or_false] at taken
  rcases taken with base | packed | framed | varint | varfor
  · rw [base]
    exact ⟨fun _ => rfl, fun _ => rfl⟩
  · rw [packed]
    exact ⟨fun _ => rfl, by simp [Encoding.hasNbits]⟩
  · rw [framed]
    exact ⟨by simp [Encoding.hasOrigin], by simp [Encoding.hasNbits]⟩
  · rw [varint]
    exact ⟨fun _ => rfl, fun _ => rfl⟩
  · rw [varfor]
    exact ⟨by simp [Encoding.hasOrigin], fun _ => rfl⟩

/-- The patched encoding carries both fields. -/
theorem store_plain (t : Trial) (origin : T.Original) (m : Metadata T) :
    (t.store origin m).Plain :=
  ⟨by simp [Trial.store, Encoding.hasOrigin], by simp [Trial.store, Encoding.hasNbits]⟩

/-- Whatever is selected into new metadata, the other fields keep their first values. -/
theorem select_plain (src : List T.Original) : (select (Metadata.fresh T) src).Plain := by
  rcases paths src with rfl | ⟨some, constant⟩ | varied
  · exact ⟨fun _ => rfl, fun _ => rfl⟩
  · rw [select_constant _ some constant]
    exact ⟨by simp [Encoding.hasOrigin], fun _ => rfl⟩
  · have basic := selectBasic_plain src
    have whole := rangeNbits_pos src varied
    have most := rangeNbits_le src
    rw [select_varied _ varied]
    split
    · exact basic
    · refine (reach_keeps src Metadata.Plain _ whole most basic ?_).1
      intro k m h1 hlt plain
      rcases tryWidth_cases src m (rangeNbits (IntegerStats.collect src))
        (show k ≤ T.nbits by omega) with kept | stored
      · rw [kept]
        exact plain
      · rw [stored]
        exact store_plain _ _ m

end IntegerCodec

/-- Two descriptors with the same content and no other one print alike. -/
theorem Metadata.print_restored {T : IntType} {m : Metadata T} (plain : m.Plain) :
    (Metadata.restored (Metadata.fresh T) m).print = m.print := by
  have same : (Metadata.restored (Metadata.fresh T) m).valueDesc =
      Metadata.restore (Descriptor.clear T) m.valueDesc := by
    rw [Metadata.restored]
    split <;> rfl
  have origin : (Metadata.restore (Descriptor.clear T) m.valueDesc).origin =
      m.valueDesc.origin := by
    cases has : m.valueDesc.encoding.hasOrigin with
    | true => simp only [Metadata.restore, has, if_true]
    | false =>
      rw [plain.origin has]
      simp only [Metadata.restore, has]
      rfl
  have nbits : (Metadata.restore (Descriptor.clear T) m.valueDesc).nbits = m.valueDesc.nbits := by
    cases has : m.valueDesc.encoding.hasNbits with
    | true => simp only [Metadata.restore, has, if_true]
    | false =>
      rw [plain.nbits has]
      simp only [Metadata.restore, has]
      rfl
  rw [Metadata.print, Metadata.print, same, origin, nbits]
  rfl

/-- The line for a sequence that was encoded with new metadata. -/
def IntegerCodec.line {T : IntType} (src : List T.Original) : Bytes :=
  (select (Metadata.fresh T) src).print ++ text "\n"

theorem IntegerGroup.Stores.info {T : IntType} {self : IntegerGroup T} {src : List T.Original}
    {aligned : Bool} (h : self.Stores src aligned) (room : src.length < 2 ^ 64) :
    self.info = .ok (IntegerCodec.line src) := by
  have described := IntegerCodec.select_describes src room
  obtain ⟨pad, bytes, data, -⟩ := h.data room
  have read := Metadata.consumes_decode (Metadata.fresh T) _ described.expressible (pad ++ bytes)
  have printed := Metadata.print_restored (IntegerCodec.select_plain src)
  rw [IntegerGroup.info, decodeMetadata, data]
  simp only [read, bind, Except.bind, pure, Except.pure, printed]
  rfl

/-- A function that succeeds on all elements succeeds on the list. -/
theorem mapM_ok {α β : Type} {f : α → Outcome β} {as : List α} {bs : List β}
    (h : List.Forall₂ (fun a b => f a = .ok b) as bs) : as.mapM f = .ok bs := by
  induction h with
  | nil => rfl
  | cons first _ ih =>
    rw [List.mapM_cons, first, ih]
    rfl

end Oroch
