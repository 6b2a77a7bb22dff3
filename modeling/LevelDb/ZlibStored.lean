/-
This file gives a zlib that stores its data: the raw streams of compression level 0, whose blocks hold
up to 65535 bytes as they are. It takes all input before it puts anything out, and keeps what is
documented about `deflate` and `inflate`. The properties of the compressor are tried on it.
-/

import LevelDb.ZlibStreams

namespace LevelDb

/-! ### Streams of stored blocks -/

/-- The length of a stored block, and its complement. -/
def storedLengths (data : Bytes) : Bytes :=
  encodeFixed 2 data.length ++ encodeFixed 2 (65535 - data.length)

/-- So many full blocks, and a last one. -/
def storedBlocks : Nat → Bytes → Bytes
  | 0, data => 1 :: (storedLengths data ++ data)
  | count + 1, data =>
    0 :: (storedLengths (data.take 65535) ++ (data.take 65535 ++ storedBlocks count (data.drop 65535)))

def storedStream (data : Bytes) : Bytes := storedBlocks (data.length / 65535) data

/-- The data of the blocks at the start of some bytes, up to a last one. -/
def storedData : Nat → Bytes → Bytes
  | 0, _ => []
  | _ + 1, [] => []
  | fuel + 1, flag :: rest =>
    let length := decodeFixed (rest.take 2)
    (rest.drop 4).take length ++ if flag = 1 then [] else storedData fuel ((rest.drop 4).drop length)

/-- The data of a complete stream. -/
def unstore (stream : Bytes) : Option Bytes :=
  if storedStream (storedData stream.length stream) = stream then
    some (storedData stream.length stream)
  else none

theorem length_storedLengths (data : Bytes) : (storedLengths data).length = 4 := by
  rw [storedLengths, List.length_append, length_encodeFixed, length_encodeFixed]

theorem length_storedBlocks {count : Nat} {data : Bytes} (atLeast : 65535 * count ≤ data.length) :
    (storedBlocks count data).length = data.length + 5 * (count + 1) := by
  induction count generalizing data with
  | zero =>
    rw [storedBlocks, List.length_cons, List.length_append, length_storedLengths]
    omega
  | succ count inductionHypothesis =>
    have rest : 65535 * count ≤ (data.drop 65535).length := by
      rw [List.length_drop]
      omega
    rw [storedBlocks, List.length_cons, List.length_append, length_storedLengths, List.length_append,
      inductionHypothesis rest, List.length_take, List.length_drop]
    omega

theorem length_storedStream (data : Bytes) :
    (storedStream data).length = data.length + 5 * (data.length / 65535 + 1) :=
  length_storedBlocks (Nat.mul_div_le _ _)

theorem storedData_block {flag : UInt8} {block rest : Bytes} (fits : block.length ≤ 65535)
    (fuel : Nat) :
    storedData (fuel + 1) (flag :: (storedLengths block ++ (block ++ rest))) =
      block ++ if flag = 1 then [] else storedData fuel rest := by
  have first : (storedLengths block ++ (block ++ rest)).take 2 = encodeFixed 2 block.length := by
    rw [storedLengths, List.append_assoc]
    exact List.take_left' (length_encodeFixed 2 _)
  have behind : (storedLengths block ++ (block ++ rest)).drop 4 = block ++ rest :=
    List.drop_left' (length_storedLengths block)
  rw [storedData, first, behind, decodeFixed_encodeFixed (by omega), List.take_left, List.drop_left]

/-- The data of a stream is found again, whatever follows. -/
theorem storedData_storedBlocks {count fuel : Nat} {data : Bytes} (more : Bytes)
    (atMost : data.length < 65535 * (count + 1)) (enough : count < fuel) :
    storedData fuel (storedBlocks count data ++ more) = data := by
  induction count generalizing data fuel with
  | zero =>
    obtain ⟨fuel, rfl⟩ : ∃ other, fuel = other + 1 := ⟨fuel - 1, by omega⟩
    rw [storedBlocks, List.cons_append, List.append_assoc, storedData_block (by omega), if_pos rfl,
      List.append_nil]
  | succ count inductionHypothesis =>
    obtain ⟨fuel, rfl⟩ : ∃ other, fuel = other + 1 := ⟨fuel - 1, by omega⟩
    have rest : (data.drop 65535).length < 65535 * (count + 1) := by
      rw [List.length_drop]
      omega
    rw [storedBlocks, List.cons_append, List.append_assoc, List.append_assoc,
      storedData_block (List.length_take_le _ _), if_neg (by decide),
      inductionHypothesis rest (by omega), List.take_append_drop]

theorem storedData_storedStream (data more : Bytes) :
    storedData (storedStream data ++ more).length (storedStream data ++ more) = data := by
  refine storedData_storedBlocks more (by omega) ?_
  rw [List.length_append, length_storedStream]
  omega

theorem unstore_eq_some {stream data : Bytes} : unstore stream = some data ↔ stream = storedStream data := by
  constructor
  · intro isData
    obtain ⟨same, isSome⟩ := Option.ite_none_right_eq_some.mp isData
    rw [← Option.some.inj isSome, same]
  · rintro rfl
    have found := storedData_storedStream data []
    rw [List.append_nil] at found
    rw [unstore, found, if_pos rfl]

theorem storedStream_delimited {data data' more : Bytes}
    (same : storedStream data ++ more = storedStream data') : more = [] ∧ data' = data := by
  have first := storedData_storedStream data more
  have second := storedData_storedStream data' []
  rw [List.append_nil] at second
  have isData : data' = data := by rw [← first, same, second]
  rw [isData] at same
  exact ⟨List.append_right_eq_self.mp same, isData⟩

/-! ### The calls -/

/-- A stream that is written: the data that was given, and what is left to put out. -/
structure StoredDeflating where
  data : Bytes
  left : Option Bytes

/-- A stream that is read: what was taken of it, and the data left to put out. -/
structure StoredInflating where
  stream : Bytes
  left : Option Bytes

/-- Put out as much as there is room for. -/
def putOut {State : Type} (behind : Option Bytes → State) (taken : Nat) (left : Bytes) (availOut : Nat) :
    ZlibCall State :=
  ⟨if left.length ≤ availOut then zStreamEnd else zOk, behind (some (left.drop availOut)), taken,
    left.take availOut⟩

def zBufError : Int := -5

def storedDeflate (state : StoredDeflating) (input : Bytes) (availOut : Nat) :
    Flush → ZlibCall StoredDeflating
  | .noFlush => ⟨zOk, ⟨state.data ++ input, state.left⟩, input.length, []⟩
  | .finish =>
    putOut (fun left => ⟨state.data ++ input, left⟩) input.length
      (state.left.getD (storedStream (state.data ++ input))) availOut

def storedInflate (state : StoredInflating) (input : Bytes) (availOut : Nat) : ZlibCall StoredInflating :=
  match state.left with
  | some left => putOut (fun left => ⟨state.stream, left⟩) 0 left availOut
  | none =>
    match (List.range (input.length + 1)).find? fun taken =>
        (unstore (state.stream ++ input.take taken)).isSome with
    | some taken =>
      putOut (fun left => ⟨state.stream ++ input.take taken, left⟩) taken
        ((unstore (state.stream ++ input.take taken)).getD []) availOut
    | none =>
      ⟨if input = [] then zBufError else zOk, ⟨state.stream ++ input, none⟩, input.length, []⟩

/-- A zlib whose streams hold stored blocks. -/
def storedZlib : Zlib StoredDeflating StoredInflating where
  deflateInit2 _ _ := (zOk, ⟨[], none⟩)
  deflate := storedDeflate
  inflateInit2 _ := (zOk, ⟨[], none⟩)
  inflate := storedInflate

/-- The complete streams of the zlib that stores. -/
def IsStored (stream raw : Bytes) : Prop := stream = storedStream raw

/-! ### What is documented holds -/

theorem length_putOut_le {State : Type} (behind : Option Bytes → State) (taken : Nat) (left : Bytes)
    (availOut : Nat) : (putOut behind taken left availOut).output.length ≤ availOut :=
  List.length_take_le _ _

theorem putOut_full {State : Type} {behind : Option Bytes → State} {taken availOut : Nat}
    {left : Bytes} (isOk : (putOut behind taken left availOut).ret = zOk) :
    (putOut behind taken left availOut).output.length = availOut := by
  have long : ¬ left.length ≤ availOut := fun short => by
    rw [putOut, if_pos short] at isOk
    exact absurd (show zStreamEnd = zOk from isOk) (by decide)
  rw [putOut, List.length_take]
  omega

theorem putOut_ended {State : Type} {behind : Option Bytes → State} {taken availOut : Nat}
    {left : Bytes} (isEnd : (putOut behind taken left availOut).ret = zStreamEnd) :
    left.length ≤ availOut := by
  by_contra long
  rw [putOut, if_neg long] at isEnd
  exact absurd (show zOk = zStreamEnd from isEnd) (by decide)

theorem putOut_nil {State : Type} (behind : Option Bytes → State) (taken availOut : Nat) :
    (putOut behind taken [] availOut).ret = zStreamEnd := by
  show (if ([] : Bytes).length ≤ availOut then zStreamEnd else zOk) = zStreamEnd
  exact if_pos (Nat.zero_le availOut)

theorem putOut_returns {State : Type} (behind : Option Bytes → State) (taken : Nat) (left : Bytes)
    (availOut : Nat) : (putOut behind taken left availOut).ret = zOk ∨
      (putOut behind taken left availOut).ret = zStreamEnd := by
  rw [putOut]
  dsimp only
  split
  · exact .inr rfl
  · exact .inl rfl

/-- What was put out and what is left make up the stream of the data that was given. -/
theorem storedZlib_deflates {level windowBits : Int} {flush : Flush} {strm : StoredDeflating}
    {taken output : Bytes} (deflates : storedZlib.Deflates level windowBits flush strm taken output) :
    strm.data = taken ∧ (flush = .noFlush → strm.left = none) ∧
      output ++ strm.left.getD (storedStream taken) = storedStream taken := by
  induction deflates with
  | init => exact ⟨rfl, fun _ => rfl, rfl⟩
  | @noFlush strm taken output input availOut _ _ _ inductionHypothesis =>
    obtain ⟨isData, isNone, whole⟩ := inductionHypothesis
    have nothing : output = [] := by
      rw [isNone rfl] at whole
      exact List.append_left_eq_self.mp whole
    refine ⟨?_, isNone, ?_⟩
    · show strm.data ++ input = taken ++ input.take input.length
      rw [isData, List.take_length]
    · rw [nothing]
      show (strm.left.getD _) = _
      rw [isNone rfl]
      rfl
  | @finish flush strm taken output availOut _ _ inductionHypothesis =>
    obtain ⟨isData, -, whole⟩ := inductionHypothesis
    refine ⟨(List.append_nil _).trans isData, nofun, ?_⟩
    show output ++ (strm.left.getD (storedStream (strm.data ++ []))).take availOut ++
      (strm.left.getD (storedStream (strm.data ++ []))).drop availOut = _
    rw [List.append_nil, isData, List.append_assoc, List.take_append_drop, whole]

theorem storedZlib_deflate_finish {level windowBits : Int} {flush : Flush} {strm : StoredDeflating}
    {taken output : Bytes} (deflates : storedZlib.Deflates level windowBits flush strm taken output)
    (availOut : Nat) : storedZlib.deflate strm [] availOut .finish =
      putOut (fun left => ⟨taken, left⟩) 0 (strm.left.getD (storedStream taken)) availOut := by
  show putOut (fun left => (⟨strm.data ++ [], left⟩ : StoredDeflating)) 0
    (strm.left.getD (storedStream (strm.data ++ []))) availOut = _
  rw [List.append_nil, (storedZlib_deflates deflates).1]

theorem storedZlib_deflateContract (level windowBits : Int) :
    storedZlib.DeflateContract level windowBits IsStored where
  output_le strm input availOut flush := by
    cases flush with
    | noFlush => exact Nat.zero_le availOut
    | finish => exact length_putOut_le _ _ _ _
  noFlush_stops strm taken output input availOut _ _ _ _ := .inl (le_refl input.length)
  finish_stops flush strm taken output availOut deflates _ isOk := by
    rw [storedZlib_deflate_finish deflates] at isOk ⊢
    exact putOut_full isOk
  finished flush strm taken output availOut deflates _ isEnd := by
    rw [storedZlib_deflate_finish deflates] at isEnd ⊢
    show output ++ (strm.left.getD (storedStream taken)).take availOut = storedStream taken
    rw [List.take_of_length_le (putOut_ended isEnd), (storedZlib_deflates deflates).2.2]
  bounded length := by
    refine ⟨length + 5 * (length / 65535 + 1), fun flush strm taken output deflates le => ?_⟩
    have whole := congrArg List.length (storedZlib_deflates deflates).2.2
    have fewer := Nat.div_le_div_right le (c := 65535)
    rw [List.length_append, length_storedStream] at whole
    omega

theorem storedZlib_noErrors (level windowBits : Int) :
    storedZlib.NoDeflateErrors level windowBits where
  noFlush _ _ _ _ _ _ _ _ := rfl
  finish flush strm taken output availOut deflates _ := by
    rw [storedZlib_deflate_finish deflates]
    exact putOut_returns _ _ _ _

/-- Nothing is put out before the stream is complete; then what was put out and what is left make up
its data. -/
def StoredInflating.Reads (strm : StoredInflating) (taken output : Bytes) : Prop :=
  strm.stream = taken ∧
    match strm.left with
    | none => output = [] ∧ ∀ stream, stream <+: taken → unstore stream = none
    | some left => taken = storedStream (output ++ left)

theorem refuses_append {stream input : Bytes}
    (refuses : ∀ front, front <+: stream → unstore front = none)
    (refused : ∀ taken ≤ input.length, unstore (stream ++ input.take taken) = none) {front : Bytes}
    (isPrefix : front <+: stream ++ input) : unstore front = none := by
  rcases Nat.le_total front.length stream.length with le | le
  · exact refuses front (List.prefix_of_prefix_length_le isPrefix (List.prefix_append _ _) le)
  · have inside := isPrefix.length_le
    rw [List.length_append] at inside
    rw [List.prefix_iff_eq_take.mp isPrefix, List.take_append, List.take_of_length_le le]
    exact refused _ (by omega)

theorem storedInflate_eq (strm : StoredInflating) (input : Bytes) (availOut : Nat) :
    (∃ taken raw, taken ≤ input.length ∧
      (strm.left = some raw ∧ taken = 0 ∨
        strm.left = none ∧ strm.stream ++ input.take taken = storedStream raw) ∧
      storedInflate strm input availOut =
        putOut (fun left => ⟨strm.stream ++ input.take taken, left⟩) taken raw availOut) ∨
    (strm.left = none ∧ (∀ taken ≤ input.length, unstore (strm.stream ++ input.take taken) = none) ∧
      storedInflate strm input availOut =
        ⟨if input = [] then zBufError else zOk, ⟨strm.stream ++ input, none⟩, input.length, []⟩) := by
  obtain ⟨stream, left⟩ := strm
  cases left with
  | some left =>
    refine .inl ⟨0, left, Nat.zero_le _, .inl ⟨rfl, rfl⟩, ?_⟩
    rw [List.take_zero, List.append_nil]
    rfl
  | none =>
    cases found : (List.range (input.length + 1)).find? fun taken =>
        (unstore (stream ++ input.take taken)).isSome with
    | some taken =>
      have isIn := List.mem_range.mp (List.mem_of_find?_eq_some found)
      have accepted : (unstore (stream ++ input.take taken)).isSome = true :=
        List.find?_some (p := fun taken => (unstore (stream ++ input.take taken)).isSome) found
      obtain ⟨raw, isRaw⟩ := Option.isSome_iff_exists.mp accepted
      refine .inl ⟨taken, raw, Nat.le_of_lt_succ isIn, .inr ⟨rfl, unstore_eq_some.mp isRaw⟩, ?_⟩
      rw [storedInflate]
      dsimp only
      rw [found]
      dsimp only
      rw [isRaw, Option.getD_some]
    | none =>
      refine .inr ⟨rfl, fun taken le => ?_, ?_⟩
      · have refused := List.find?_eq_none.mp found taken (List.mem_range.mpr (Nat.lt_succ_of_le le))
        exact Option.not_isSome_iff_eq_none.mp refused
      · rw [storedInflate]
        dsimp only
        rw [found]

/-- A call puts out data of the stream, or takes all of an input that completes no stream. -/
theorem StoredInflating.Reads.call {strm : StoredInflating} {taken output : Bytes}
    (reads : strm.Reads taken output) (input : Bytes) (availOut : Nat) :
    (∃ count raw, taken ++ input.take count = storedStream (output ++ raw) ∧
      storedZlib.inflate strm input availOut =
        putOut (fun left => ⟨taken ++ input.take count, left⟩) count raw availOut) ∨
    (output = [] ∧ (∀ front, front <+: taken ++ input → unstore front = none) ∧
      storedZlib.inflate strm input availOut =
        ⟨if input = [] then zBufError else zOk, ⟨taken ++ input, none⟩, input.length, []⟩) := by
  obtain ⟨rfl, rest⟩ := reads
  obtain ⟨count, raw, -, isLeft, call⟩ | ⟨isNone, refused, call⟩ :=
    storedInflate_eq strm input availOut
  · refine .inl ⟨count, raw, ?_, call⟩
    obtain ⟨isSome, rfl⟩ | ⟨isNone, isStream⟩ := isLeft
    · rw [isSome] at rest
      rw [List.take_zero, List.append_nil]
      exact rest
    · rw [isNone] at rest
      rw [rest.1, isStream, List.nil_append]
  · rw [isNone] at rest
    exact .inr ⟨rest.1, fun front => refuses_append rest.2 refused, call⟩

theorem storedZlib_inflates {windowBits : Int} {strm : StoredInflating} {taken output : Bytes}
    (inflates : storedZlib.Inflates windowBits strm taken output) : strm.Reads taken output := by
  induction inflates with
  | init =>
    refine ⟨rfl, rfl, fun stream isPrefix => ?_⟩
    rw [List.prefix_nil.mp isPrefix]
    rfl
  | call input availOut _ _ _ inductionHypothesis =>
    obtain ⟨count, raw, isStream, call⟩ | ⟨isEmpty, refuses, call⟩ :=
      inductionHypothesis.call input availOut
    · rw [call]
      refine ⟨rfl, ?_⟩
      show _ = storedStream (_ ++ raw.take availOut ++ raw.drop availOut)
      rw [List.append_assoc, List.take_append_drop]
      exact isStream
    · rw [call, isEmpty]
      dsimp only
      rw [List.take_length]
      exact ⟨rfl, rfl, refuses⟩

theorem storedZlib_inflateContract (windowBits : Int) :
    storedZlib.InflateContract windowBits IsStored where
  opened := rfl
  taken_le strm input availOut := by
    obtain ⟨count, raw, le, -, call⟩ | ⟨-, -, call⟩ := storedInflate_eq strm input availOut
    · exact le_of_eq_of_le (congrArg ZlibCall.taken call) le
    · exact le_of_eq (congrArg ZlibCall.taken call)
  output_le strm input availOut := by
    obtain ⟨count, raw, -, -, call⟩ | ⟨-, -, call⟩ := storedInflate_eq strm input availOut
    · show (storedInflate strm input availOut).output.length ≤ availOut
      rw [call]
      exact length_putOut_le _ _ _ _
    · show (storedInflate strm input availOut).output.length ≤ availOut
      rw [call]
      exact Nat.zero_le _
  returns strm input availOut := by
    obtain ⟨count, raw, -, -, call⟩ | ⟨-, -, call⟩ := storedInflate_eq strm input availOut
    · have isRet := congrArg ZlibCall.ret call
      rcases putOut_returns (fun left => (⟨strm.stream ++ input.take count, left⟩ : StoredInflating))
        count raw availOut with isOk | isEnd
      · exact .inl (isRet.trans isOk)
      · exact .inr (.inl (isRet.trans isEnd))
    · have isRet : (storedZlib.inflate strm input availOut).ret =
          if input = [] then zBufError else zOk := congrArg ZlibCall.ret call
      rw [isRet]
      split
      · exact .inr (.inr (.inr (by decide)))
      · exact .inl rfl
  progress strm taken output input availOut inflates positive isOk := by
    obtain ⟨count, raw, -, call⟩ | ⟨-, -, call⟩ := (storedZlib_inflates inflates).call input availOut
    · rw [call] at isOk ⊢
      exact .inr (List.length_pos_iff.mp (lt_of_lt_of_eq positive (putOut_full isOk).symm))
    · rw [call] at isOk ⊢
      have nonempty : input ≠ [] := fun isEmpty => by
        rw [isEmpty] at isOk
        exact absurd (show zBufError = zOk from isOk) (by decide)
      exact .inl (List.length_pos_iff.mpr nonempty)
  ended strm taken output input availOut inflates _ isEnd := by
    obtain ⟨count, raw, isStream, call⟩ | ⟨-, -, call⟩ :=
      (storedZlib_inflates inflates).call input availOut
    · rw [call] at isEnd ⊢
      show taken ++ input.take count = storedStream (output ++ raw.take availOut)
      rw [List.take_of_length_le (putOut_ended isEnd), isStream]
    · rw [call] at isEnd
      dsimp only at isEnd
      split at isEnd <;> exact absurd isEnd (by decide)
  stays strm taken output input availOut inflates _ isEnd rest room := by
    obtain ⟨count, raw, -, call⟩ | ⟨-, -, call⟩ := (storedZlib_inflates inflates).call input availOut
    · rw [call] at isEnd ⊢
      have nothing : raw.drop availOut = [] := List.drop_eq_nil_of_le (putOut_ended isEnd)
      have next : storedZlib.inflate (putOut (fun left => ⟨taken ++ input.take count, left⟩) count raw
          availOut).state rest room =
            putOut (fun left => ⟨taken ++ input.take count, left⟩) 0 (raw.drop availOut) room := rfl
      rw [next, nothing]
      exact ⟨putOut_nil _ 0 room, rfl, List.take_nil⟩
    · rw [call] at isEnd
      dsimp only at isEnd
      split at isEnd <;> exact absurd isEnd (by decide)
  accepts strm taken output input availOut stream raw inflates _ isStream isPrefix := by
    obtain ⟨count, raw, -, call⟩ | ⟨-, refuses, _⟩ := (storedZlib_inflates inflates).call input availOut
    · rw [call]
      exact putOut_returns _ _ _ _
    · have refused := refuses stream isPrefix
      rw [unstore_eq_some.mpr isStream] at refused
      cases refused
  bounded length := by
    refine ⟨length, fun strm taken output inflates le => le_trans ?_ le⟩
    obtain ⟨-, rest⟩ := storedZlib_inflates inflates
    split at rest
    · rw [rest.1]
      exact Nat.zero_le _
    · rw [rest, length_storedStream, List.length_append]
      omega
  delimited stream more raw raw' isStream isStream' := by
    rw [isStream] at isStream'
    exact storedStream_delimited isStream'

end LevelDb
