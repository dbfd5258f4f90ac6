import WordMachine.Proofs.Residence

/-!
Images read out of their buffers. A machine holds of an image one buffer and the marks of what was
found in its header. A name is read from the buffer whenever it is asked for, and so is the code; what
is read out of the buffer of an image is that image, whatever has been put into its code.
-/

namespace WordMachine

/-- Where a name lies. -/
structure Span where
  start : Nat
  length : Nat
  deriving DecidableEq, Repr

/-- The name was found to be text when the marks were made. -/
def Span.text (s : Span) (bytes : Array UInt8) : String :=
  (Utf8.decode? (bytes.extract s.start (s.start + s.length)).toList).getD ""

/-- An image as a machine holds it. -/
structure Buffer extends Resident where
  nameSpan : Span
  exportSpans : List (Span × Word)
  deriving DecidableEq, Repr

namespace Buffer

def name (b : Buffer) : String := b.nameSpan.text b.bytes

def exports (b : Buffer) : List Export :=
  b.exportSpans.map fun (span, offset) => ⟨span.text b.bytes, offset⟩

def code (b : Buffer) : Code := b.bytes.extract b.codeStart b.bytes.size

/-- All that is read out of the buffer. -/
def image (b : Buffer) : Image := ⟨b.name, b.exports, b.code⟩

/-- Puts bytes into the buffer from an offset of the code on. -/
def put (b : Buffer) (offset : Nat) (bytes : List UInt8) : Buffer :=
  { b with bytes := Code.put b.bytes (b.codeStart + offset) bytes }

/-- The same header before another code. -/
def withCode (b : Buffer) (code : Code) : Buffer :=
  { b with bytes := b.bytes.extract 0 b.codeStart ++ code }

end Buffer

namespace Image

/-- Where the names of exports lie whose bytes begin at an offset. -/
def spansFrom : (offset : Nat) → List Export → List (Span × Word)
  | _, [] => []
  | offset, e :: es =>
    (⟨offset + 1, e.name.utf8ByteSize⟩, e.offset) ::
      spansFrom (offset + 1 + e.name.utf8ByteSize + 2) es

/-- Marks in the bytes of an image what its header holds. -/
def marked (image : Image) (bytes : List UInt8) : Buffer where
  bytes := bytes.toArray
  codeStart := image.headerSize
  nameSpan := ⟨1, image.name.utf8ByteSize⟩
  exportSpans := spansFrom (1 + image.name.utf8ByteSize + 1) image.exports

def buffer (image : Image) : Buffer := image.marked image.bytes

end Image

/-- Reads an encoded image into a buffer. -/
def Buffer.load (bytes : List UInt8) : Except HeaderError Buffer :=
  (Image.parse bytes).map fun image => image.marked bytes

theorem Span.text_of_append {front rest : List UInt8} (name : String) {start : Nat}
    (h : front.length = start) :
    (⟨start, name.utf8ByteSize⟩ : Span).text (front ++ (Utf8.encode name ++ rest)).toArray =
      name := by
  have hbytes : ((front ++ (Utf8.encode name ++ rest)).toArray.extract start
      (start + name.utf8ByteSize)).toList = Utf8.encode name := by
    simp [← h, ← Utf8.length_encode]
  rw [Span.text, hbytes, Utf8.decode?_encode]
  rfl

namespace Image

theorem load_eq (bytes : List UInt8) : Buffer.load bytes = (parse bytes).map buffer := by
  cases h : parse bytes with
  | error e => rw [Buffer.load, h]; rfl
  | ok image =>
    rw [Buffer.load, h]
    simp only [Except.map, buffer, bytes_of_parse h]

theorem name_buffer (image : Image) : image.buffer.name = image.name := by
  have hbytes : image.bytes = [UInt8.ofNat image.name.utf8ByteSize] ++ (Utf8.encode image.name ++
      (UInt8.ofNat image.exports.length :: image.exports.flatMap exportBytes ++
        image.code.toList)) := by
    simp [bytes, headerBytes, nameBytes]
  have hname : (⟨1, image.name.utf8ByteSize⟩ : Span).text image.bytes.toArray = image.name := by
    rw [hbytes]
    exact Span.text_of_append image.name rfl
  exact hname

/-- The exports follow each other, so that each is found behind those before it. -/
theorem text_spansFrom (es : List Export) {front : List UInt8} {start : Nat}
    (h : front.length = start) (rest : List UInt8) :
    (spansFrom start es).map (fun (span, offset) =>
      (⟨span.text (front ++ (es.flatMap exportBytes ++ rest)).toArray, offset⟩ : Export)) = es := by
  induction es generalizing front start with
  | nil => rfl
  | cons e es ih =>
    have hfirst : front ++ ((e :: es).flatMap exportBytes ++ rest) =
        (front ++ [UInt8.ofNat e.name.utf8ByteSize]) ++ (Utf8.encode e.name ++
          (e.offset.bytes ++ (es.flatMap exportBytes ++ rest))) := by
      simp [exportBytes, nameBytes]
    have hothers : front ++ ((e :: es).flatMap exportBytes ++ rest) =
        (front ++ exportBytes e) ++ (es.flatMap exportBytes ++ rest) := by
      simp
    have hname : (⟨start + 1, e.name.utf8ByteSize⟩ : Span).text
        (front ++ ((e :: es).flatMap exportBytes ++ rest)).toArray = e.name := by
      rw [hfirst]
      exact Span.text_of_append e.name (by simp [h])
    have hend : (front ++ exportBytes e).length = start + 1 + e.name.utf8ByteSize + 2 := by
      simp [h, exportBytes, length_nameBytes, Word.bytes]
      omega
    have hrest := ih hend
    rw [← hothers] at hrest
    rw [spansFrom, List.map_cons, hrest]
    exact congrArg (fun name => (⟨name, e.offset⟩ : Export) :: es) hname

theorem exports_buffer (image : Image) : image.buffer.exports = image.exports := by
  have hbytes : image.bytes = (nameBytes image.name ++ [UInt8.ofNat image.exports.length]) ++
      (image.exports.flatMap exportBytes ++ image.code.toList) := by
    simp [bytes, headerBytes]
  rw [Buffer.exports]
  show (spansFrom _ image.exports).map (fun (span, offset) =>
    (⟨span.text image.bytes.toArray, offset⟩ : Export)) = image.exports
  rw [hbytes]
  exact text_spansFrom image.exports (by simp [length_nameBytes]) image.code.toList

theorem code_buffer (image : Image) : image.buffer.code = image.code := by
  have hb : image.buffer.bytes = image.headerBytes.toArray ++ image.code := image.bytes_resident
  have hs : image.buffer.codeStart = image.headerBytes.toArray.size := image.codeStart_resident
  rw [Buffer.code, hb, hs]
  simp

/-- What is read out of the buffer of an image is the image. -/
@[simp] theorem image_buffer (image : Image) : image.buffer.image = image := by
  rw [Buffer.image, name_buffer, exports_buffer, code_buffer]

theorem put_buffer (image : Image) (offset : Nat) (bytes : List UInt8) :
    image.buffer.put offset bytes =
      { image with code := image.code.put offset bytes }.buffer :=
  congrArg (fun bytes => { image.buffer with bytes }) (image.put_bytes offset bytes)

/-- The first byte of the code lies behind a header of seven. -/
example :
    let buffer := (Image.mk "m" [⟨"e", 1⟩] #[5, 6]).buffer.put 0 [9]
    buffer.bytes = #[1, 109, 1, 1, 101, 1, 0, 9, 6] ∧ buffer.image = ⟨"m", [⟨"e", 1⟩], #[9, 6]⟩ := by
  decide

theorem withCode_buffer (image : Image) (code : Code) :
    image.buffer.withCode code = { image with code }.buffer := by
  have hafter := bytes_resident { image with code }
  have hheader : image.buffer.bytes.extract 0 image.buffer.codeStart =
      image.headerBytes.toArray := by
    show image.resident.bytes.extract 0 image.resident.codeStart = _
    rw [bytes_resident, codeStart_resident]
    simp
  have hbytes := (congrArg (· ++ code) hheader).trans hafter.symm
  exact congrArg (fun bytes => { image.buffer with bytes }) hbytes

end Image

end WordMachine
