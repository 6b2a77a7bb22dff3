/-
This file models the parts of a table file (`table/format`): the handles of blocks, the footer, and
the trailer of a block with its compression type and checksum. `ReadBlock` reads a block through a
handle and undoes the compression that `WriteBlock` of the table builder chose.

A read of bytes that the file did not return is a fault of the model.
-/

import LevelDb.Crc32c
import LevelDb.Sst.Block

namespace LevelDb.Sst

/-! ### Handles and the footer -/

/-- A `BlockHandle`: two 64-bit numbers. -/
structure BlockHandle where
  offset : Nat
  size : Nat
  deriving DecidableEq, Repr

namespace BlockHandle

/-- `EncodeTo`. -/
def encodeTo (handle : BlockHandle) : Bytes :=
  encodeVarint64 handle.offset ++ encodeVarint64 handle.size

/-- `DecodeFrom`: the handle and the bytes behind it. -/
def decodeFrom (input : Bytes) : Except String (BlockHandle × Bytes) :=
  match getVarint64 input with
  | none => .error "bad block handle"
  | some (offset, rest) =>
    match getVarint64 rest with
    | none => .error "bad block handle"
    | some (size, rest) => .ok (⟨offset, size⟩, rest)

end BlockHandle

/-- A `Footer`. -/
structure Footer where
  metaindexHandle : BlockHandle
  indexHandle : BlockHandle
  deriving DecidableEq, Repr

def kTableMagicNumber : Nat := 0xdb4775248b80fb57

namespace Footer

/-- `2 * BlockHandle::kMaxEncodedLength`. -/
def kHandlesLength : Nat := 40

/-- `Footer::kEncodedLength`. -/
def kEncodedLength : Nat := 48

/-- `std::string::resize`. -/
def resize (length : Nat) (bytes : Bytes) : Bytes :=
  bytes.take length ++ List.replicate (length - bytes.length) 0

/-- `EncodeTo`, into an empty string. -/
def encodeTo (footer : Footer) : Bytes :=
  resize kHandlesLength (footer.metaindexHandle.encodeTo ++ footer.indexHandle.encodeTo) ++
    (encodeFixed32 (kTableMagicNumber % 2 ^ 32) ++ encodeFixed32 (kTableMagicNumber >>> 32))

/-- `DecodeFrom`. It looks at 48 bytes, whatever the length of its input is. -/
def decodeFrom (input : Bytes) : Except Fault (Except String Footer) :=
  if input.length < kEncodedLength then .error .outside
  else
    let magicPtr := input.drop kHandlesLength
    let magicLo := decodeFixed32 magicPtr
    let magicHi := decodeFixed32 (magicPtr.drop 4)
    if (magicHi <<< 32 ||| magicLo) ≠ kTableMagicNumber then
      .ok (.error "not an sstable (bad magic number)")
    else
      match BlockHandle.decodeFrom input with
      | .error message => .ok (.error message)
      | .ok (metaindexHandle, rest) =>
        match BlockHandle.decodeFrom rest with
        | .error message => .ok (.error message)
        | .ok (indexHandle, _) => .ok (.ok ⟨metaindexHandle, indexHandle⟩)

end Footer

/-! ### Files and compressors -/

/-- A `RandomAccessFile`: what `Read` of a number of bytes at an offset returns, which may be fewer
bytes, and whether it puts them into the buffer it is given. -/
structure RandomAccessFile where
  read : Nat → Nat → Except String Bytes
  usesScratch : Bool
  length_le : ∀ offset n bytes, read offset n = .ok bytes → bytes.length ≤ n

/-- A `Compressor`. Its ID is a signed `char`. -/
structure Compressor where
  uniqueCompressionID : Int8
  compress : Bytes → Bytes
  decompress : Bytes → Option Bytes

instance neZeroSlots : NeZero 256 := ⟨by decide⟩

/-- `options.compressors`. -/
abbrev Compressors := Fin 256 → Option Compressor

/-! ### Writing a block -/

def kBlockTrailerSize : Nat := 5

/-- The contents and the compressor that `TableBuilder::WriteBlock` chooses for a finished block:
the compressed form has to save an eighth. -/
def chooseContents (compressor : Option Compressor) (raw : Bytes) : Bytes × Option Compressor :=
  match compressor with
  | none => (raw, none)
  | some compressor =>
    if (compressor.compress raw).length < raw.length - raw.length / 8 then
      (compressor.compress raw, some compressor)
    else (raw, none)

/-- The type that is stored for a compressor. -/
def typeByte (compressor : Option Compressor) : UInt8 :=
  match compressor with
  | none => 0
  | some compressor => compressor.uniqueCompressionID.toUInt8

/-- The trailer of `WriteRawBlock`. -/
def trailer (contents : Bytes) (compressor : Option Compressor) : Bytes :=
  typeByte compressor :: encodeFixed32 (Crc32c.mask
    (Crc32c.extend 0 (Crc32c.value 0 contents) [typeByte compressor])).toNat

/-- The bytes that `WriteRawBlock` appends to the file. -/
def rawBlock (contents : Bytes) (compressor : Option Compressor) : Bytes :=
  contents ++ trailer contents compressor

/-! ### Reading a block -/

/-- `BlockContents`. -/
structure BlockContents where
  data : Bytes
  cachable : Bool
  heapAllocated : Bool
  deriving DecidableEq, Repr

/-- The search of `ReadBlock` for a compressor. A `char` and an `unsigned char` are compared as
`int`. -/
def findCompressor (compressionID : UInt8) : List (Option Compressor) → Option Compressor
  | [] => none
  | none :: _ => none
  | some compressor :: rest =>
    if compressor.uniqueCompressionID.toInt = compressionID.toNat then some compressor
    else findCompressor compressionID rest

/-- `ReadBlock`. The number of bytes to read is computed in 64 bits. The buffer of a
`DecompressAllocator` is as empty as a new one. -/
def readBlock (file : RandomAccessFile) (compressors : Compressors) (verifyChecksums : Bool)
    (handle : BlockHandle) : Except Fault (Except String BlockContents) :=
  let n := handle.size
  match file.read handle.offset ((n + kBlockTrailerSize) % 2 ^ 64) with
  | .error message => .ok (.error message)
  | .ok data =>
    if data.length ≠ (n + kBlockTrailerSize) % 2 ^ 64 then .ok (.error "truncated block read")
    else if data.length < n + kBlockTrailerSize then .error .outside
    else if verifyChecksums ∧ Crc32c.value 0 (data.take (n + 1)) ≠
        Crc32c.unmask (BitVec.ofNat 32 (decodeFixed32 (data.drop (n + 1)))) then
      .ok (.error "block checksum mismatch")
    else
      let compressionID := data.getD n 0
      if compressionID = 0 then
        .ok (.ok ⟨data.take n, file.usesScratch, file.usesScratch⟩)
      else
        match findCompressor compressionID (List.ofFn compressors) with
        | none =>
          .ok (.error "encountered a block compressed with an unknown decompressor")
        | some compressor =>
          match compressor.decompress (data.take n) with
          | none => .ok (.error "corrupted compressed block contents")
          | some contents => .ok (.ok ⟨contents, true, true⟩)

/-- The part of `Table::Open` that finds the footer of a file of a claimed size. -/
def readFooter (file : RandomAccessFile) (size : Nat) : Except Fault (Except String Footer) :=
  if size < Footer.kEncodedLength then .ok (.error "file is too short to be an sstable")
  else
    match file.read (size - Footer.kEncodedLength) Footer.kEncodedLength with
    | .error message => .ok (.error message)
    | .ok input => Footer.decodeFrom input

/-! ### Reads stay inside of what the file returned -/

/-- A file with some contents, which returns what there is up to its end. -/
def RandomAccessFile.ofBytes (contents : Bytes) : RandomAccessFile where
  read offset n := .ok ((contents.drop offset).take n)
  usesScratch := true
  length_le offset n bytes returned := by
    obtain rfl := Except.ok.inj returned
    exact List.length_take_le _ _

end LevelDb.Sst
