import Eltn.Parser.Chunks

/-!
# Parsing a file

`ELTN_Parser_read_file` reads through `File_Reader`, which asks `fread` for 256 bytes a call and
takes a call that gives none for the end of the input. It does not look at the error of a read that
gives some, and clears it before the next one. So a file whose reads fail is parsed with nothing in
the place of an error, up to the first error that strikes between two chunks (`File.heard`), and no
error is reported for either (`readFile_eq_readString`).
-/

namespace Eltn

/-- A stream of the standard library: the bytes in front of each error that its reads will meet,
with the error's number, and those behind the last one, up to the end of the file. -/
structure File where
  errors : List (Bytes × Int) := []
  rest : Bytes
  eof : Bool := false
  error : Bool := false
  errno : Int := 0
deriving DecidableEq, Repr

/-- `BUFSIZE` of `efiles.c`. -/
def bufSize : Nat := 256

/-- `fread`, of `n` bytes: the flag of the end is set where the file has less, and the one of an
error where an error comes before. -/
def fread (n : Nat) (fp : File) : Bytes × File :=
  match fp.errors with
  | [] =>
    if fp.rest.length < n then (fp.rest, { fp with rest := [], eof := true })
    else (fp.rest.take n, { fp with rest := fp.rest.drop n })
  | (bytes, errno) :: errors =>
    if bytes.length < n then
      (bytes, { fp with errors := errors, error := true, errno := errno })
    else (bytes.take n, { fp with errors := (bytes.drop n, errno) :: errors })

/-- `clearerr`. -/
def clearerr (fp : File) : File := { fp with eof := false, error := false }

/-- `File_Reader` (`efiles.c:37`), when its block is allocated: a chunk of the file, or `NULL` at
its end. Where nothing was read `errno` goes with it, and an error that came before is cleared
first. -/
def fileReader (fp : File) : ReaderResult × File :=
  if fp.eof then ({ text := none }, fp)
  else
    let read := fread bufSize (if fp.error then clearerr fp else fp)
    if read.1.length = 0 then ({ text := none, errcode := read.2.errno }, read.2)
    else ({ text := some read.1 }, read.2)

/-- The calls of `File_Reader` in front of the first that gives `NULL`. Each of them reads a byte at
least, so one turn more than the file has bytes is enough. -/
def fileResults : Nat → File → List ReaderResult
  | 0, _ => []
  | fuel + 1, fp =>
    let call := fileReader fp
    if call.1.text = none then [] else call.1 :: fileResults fuel call.2

namespace File

/-- The bytes of a file. -/
def size (fp : File) : Nat := (fp.errors.map (·.1.length)).sum + fp.rest.length

/-- The bytes in front of the first error that comes behind a whole number of chunks. Other errors
cut a chunk short, which is read as if nothing were wrong. -/
def heardFrom : List (Bytes × Int) → Bytes → Bytes
  | [], rest => rest
  | (bytes, _) :: errors, rest =>
    if bufSize ∣ bytes.length then bytes else bytes ++ heardFrom errors rest

/-- What a parser hears of a file. -/
def heard (fp : File) : Bytes := if fp.eof then [] else heardFrom fp.errors fp.rest

end File

namespace Parser

/-- `ELTN_Parser_read_file` (`efiles.c:78`): `-1` without a file, else what reading from
`File_Reader` gives. -/
def readFile (fp : Option File) (self : Parser (Lexer Buffer)) : Int × Parser (Lexer Buffer) :=
  match fp with
  | none => (-1, self)
  | some fp => self.read (fileResults (fp.size + 1) fp)

end Parser

/-! ## One call -/

section
variable {fp : File} {bytes rest : Bytes}

/-- Taking a chunk does not change where the chunks end. -/
theorem dvd_drop_bufSize (h : bufSize ≤ bytes.length) :
    bufSize ∣ (bytes.drop bufSize).length ↔ bufSize ∣ bytes.length := by
  rw [List.length_drop]
  exact (Nat.dvd_sub_iff_left h (dvd_refl bufSize))

theorem take_bufSize_ne (h : bufSize ≤ bytes.length) : bytes.take bufSize ≠ [] := by
  have hpos : 0 < bufSize := by decide
  rw [ne_eq, ← List.length_eq_zero_iff, List.length_take]
  omega

/-- What `fread` gives of the bytes behind the last error: a chunk of them, or nothing when all are
read. -/
theorem fread_rest {error : Bool} {errno : Int} :
    let fp : File := ⟨[], rest, false, error, errno⟩
    (fread bufSize fp).1 = [] ∧ fp.heard = [] ∨
      (fread bufSize fp).1 ≠ [] ∧ fp.heard = (fread bufSize fp).1 ++ (fread bufSize fp).2.heard ∧
        (fread bufSize fp).2.size < fp.size := by
  have hpos : 0 < bufSize := by decide
  dsimp only [fread, File.size, List.map_nil, List.sum_nil]
  rcases Nat.lt_or_ge rest.length bufSize with hlt | hge
  · rw [if_pos hlt]
    rcases eq_or_ne rest [] with rfl | hne
    · exact .inl ⟨rfl, rfl⟩
    · have hlen := List.length_pos_iff.mpr hne
      exact .inr ⟨hne, (List.append_nil rest).symm, Nat.add_lt_add_left hlen 0⟩
  · rw [if_neg (Nat.not_lt.mpr hge)]
    refine .inr ⟨take_bufSize_ne hge, (List.take_append_drop bufSize rest).symm, ?_⟩
    simp only [List.map_nil, List.sum_nil, List.length_drop]
    omega

/-- What `fread` gives of the bytes in front of an error: a chunk, the bytes up to the error if they
are fewer, and nothing at the error itself. -/
theorem fread_error {error : Bool} {errno errno' : Int} {errors : List (Bytes × Int)} :
    let fp : File := ⟨(bytes, errno') :: errors, rest, false, error, errno⟩
    (fread bufSize fp).1 = [] ∧ fp.heard = [] ∨
      (fread bufSize fp).1 ≠ [] ∧ fp.heard = (fread bufSize fp).1 ++ (fread bufSize fp).2.heard ∧
        (fread bufSize fp).2.size < fp.size := by
  have hpos : 0 < bufSize := by decide
  dsimp only [fread, File.size, List.map_cons, List.sum_cons]
  rcases Nat.lt_or_ge bytes.length bufSize with hlt | hge
  · rw [if_pos hlt]
    rcases eq_or_ne bytes [] with rfl | hne
    · exact .inl ⟨rfl, rfl⟩
    · have hlen := List.length_pos_iff.mpr hne
      refine .inr ⟨hne, if_neg (Nat.not_dvd_of_pos_of_lt hlen hlt), ?_⟩
      simp only [List.map_cons, List.sum_cons]
      omega
  · rw [if_neg (Nat.not_lt.mpr hge)]
    refine .inr ⟨take_bufSize_ne hge, ?_, ?_⟩
    · change (if bufSize ∣ bytes.length then bytes else bytes ++ File.heardFrom errors rest) =
        bytes.take bufSize ++ (if bufSize ∣ (bytes.drop bufSize).length then
          bytes.drop bufSize else bytes.drop bufSize ++ File.heardFrom errors rest)
      rw [if_congr (dvd_drop_bufSize hge) rfl rfl]
      split
      · exact (List.take_append_drop bufSize bytes).symm
      · rw [← List.append_assoc, List.take_append_drop]
    · simp only [List.map_cons, List.sum_cons, List.length_drop]
      omega

/-- The bytes that `fread` gives, in front of those that are still heard. So each chunk takes
something off what is left of the file. -/
theorem fread_spec (heof : fp.eof = false) :
    (fread bufSize fp).1 = [] ∧ fp.heard = [] ∨
      (fread bufSize fp).1 ≠ [] ∧ fp.heard = (fread bufSize fp).1 ++ (fread bufSize fp).2.heard ∧
        (fread bufSize fp).2.size < fp.size := by
  obtain ⟨errors, rest, eof, error, errno⟩ := fp
  obtain rfl : eof = false := heof
  cases errors with
  | nil => exact fread_rest
  | cons e errors => exact fread_error

/-- `File_Reader` gives the next chunk of what is heard, or `NULL` at its end. The file gets
smaller, so that the end is reached. -/
theorem fileReader_spec (fp : File) :
    (fileReader fp).1.text = none ∧ fp.heard = [] ∨
      ∃ c fp', fileReader fp = ({ text := some c }, fp') ∧ c ≠ [] ∧ fp.heard = c ++ fp'.heard ∧
        fp'.size < fp.size := by
  cases heof : fp.eof with
  | true => exact .inl ⟨by rw [fileReader, if_pos heof], by rw [File.heard, if_pos heof]⟩
  | false =>
    -- clearing the flags changes nothing that is read
    obtain ⟨fp', hclear, heof', hheard, hsize⟩ : ∃ fp',
        (if fp.error then clearerr fp else fp) = fp' ∧ fp'.eof = false ∧ fp'.heard = fp.heard ∧
          fp'.size = fp.size := by
      split
      · exact ⟨_, rfl, rfl, by rw [File.heard, File.heard, heof]; rfl, rfl⟩
      · exact ⟨_, rfl, heof, rfl, rfl⟩
    rw [fileReader, heof, if_neg Bool.false_ne_true, hclear, ← hheard, ← hsize]
    rcases fread_spec heof' with ⟨hread, hnil⟩ | ⟨hne, hread, hlt⟩
    · exact .inl ⟨by rw [if_pos (List.length_eq_zero_iff.mpr hread)], hnil⟩
    · rw [if_neg (mt List.length_eq_zero_iff.mp hne)]
      exact .inr ⟨_, _, rfl, hne, hread, hlt⟩

/-! ## All calls -/

/-- The calls of `File_Reader` hand out what is heard, in chunks. By induction on the calls, each of
which leaves a smaller file. -/
theorem fileResults_spec (fuel : Nat) : ∀ {fp : File}, fp.size < fuel → ∃ chunks,
    fileResults fuel fp = Parser.chunkReader chunks ∧ chunks.flatten = fp.heard ∧
      ∀ c ∈ chunks, c ≠ [] := by
  induction fuel with
  | zero => exact fun h => absurd h (Nat.not_lt_zero _)
  | succ fuel ih =>
    intro fp hfuel
    rcases fileReader_spec fp with ⟨hnone, hheard⟩ | ⟨c, fp', hcall, hne, hheard, hsize⟩
    · exact ⟨[], by rw [fileResults, if_pos hnone]; rfl, hheard.symm, by simp⟩
    · obtain ⟨chunks, hresults, hflatten, hchunks⟩ := ih (hsize.trans_le (Nat.le_of_lt_succ hfuel))
      refine ⟨c :: chunks, ?_, ?_, List.forall_mem_cons.mpr ⟨hne, hchunks⟩⟩
      · rw [fileResults, hcall, if_neg (Option.some_ne_none c), hresults]
        rfl
      · rw [List.flatten_cons, hflatten, hheard]

end

namespace Parser

/-- A parser goes through the states of the parser on the tokens that its buffer delivers. -/
theorem after_feeds {b : Buffer} (h : b.Feeds) (n : Nat) :
    ((new ({ source := b } : Lexer Buffer)).after (.ofLexer .ofBuffer) n).toParserState =
      ((new (Scan.stream b.bytes)).after .stream n).toParserState := by
  have hsmall := h.small
  exact after_scan .ofBuffer h (show b.bytes.length < 2 ^ 31 by omega) n

/-- The first chunk of a reader is stored in the new buffer, and its length is what the call
returns. -/
theorem read_first {c : Bytes} {chunks : List Bytes} (h : c.length < 2 ^ 29) :
    (create.read (chunkReader (c :: chunks))).1 = c.length := by
  have hsmall : (Buffer.new.contents ++ c).length < 2 ^ 29 := by
    rw [Buffer.new_contents]
    exact h
  obtain ⟨b, hwrite, -⟩ := Buffer.write_feeds
    (b := { Buffer.new with reader := some (chunkReader chunks) })
    (Buffer.new_sound.setReader _) hsmall rfl
  have hread : Buffer.new.read (chunkReader (c :: chunks)) = ((c.length : Int), b) := by
    have hcall :
        ({ Buffer.new with reader := some (chunkReader (c :: chunks)) } : Buffer).callReader =
          ({ text := some c }, { Buffer.new with reader := some (chunkReader chunks) }) := rfl
    rw [Buffer.read, Buffer.readIntoBuffer, hcall]
    dsimp only
    rw [hwrite, if_neg (not_not_intro rfl)]
    exact if_neg (by dsimp only; omega)
  exact congrArg Prod.fst hread

/-- **A file is parsed as the bytes that are heard of it.** For every file, with errors anywhere,
of which less than 2²⁹ bytes are heard: after every number of calls of `ELTN_Parser_next` a caller
sees the same, whether `ELTN_Parser_read_file` reads the file or `ELTN_Parser_read_string` those
bytes; and `ELTN_Parser_read_file` fails exactly if there are none. -/
theorem readFile_eq_readString (fp : File) (h : fp.heard.length < 2 ^ 29) :
    (∀ n, observe (nextEvent^[n] (create.readFile (some fp)).2).toParserState =
      observe (nextEvent^[n] (create.readString fp.heard).2).toParserState) ∧
    ((create.readFile (some fp)).1 = -1 ↔ fp.heard = []) := by
  obtain ⟨chunks, hresults, hflatten, hne⟩ := fileResults_spec (fp.size + 1) (Nat.lt_succ_self _)
  rw [← hflatten] at h ⊢
  obtain ⟨hread, hbytes⟩ := read_feeds h
  obtain ⟨hstring, hbytes'⟩ := readString_feeds h
  rw [readFile, hresults]
  refine ⟨fun n => congrArg observe ?_, ?_⟩
  · have hstate := (after_feeds hread n).trans (congrArg (fun src =>
      ((new (Scan.stream src)).after .stream n).toParserState) (hbytes.trans hbytes'.symm))
    exact hstate.trans (after_feeds hstring n).symm
  · cases chunks with
    | nil => exact iff_of_true rfl rfl
    | cons c chunks =>
      rw [List.flatten_cons, List.length_append] at h
      refine iff_of_false ?_ ?_
      · rw [read_first (by omega)]
        omega
      · intro hnil
        exact hne c List.mem_cons_self (List.append_eq_nil_iff.mp hnil).1

/-- The file `a = 1`, with an error behind its third byte. -/
theorem readFile_eq_readString_example :
    observe (nextEvent^[2] (create.readFile
        (some { errors := [(ascii "a =", 5)], rest := ascii " 1" })).2).toParserState =
      observe (nextEvent^[2] (create.readString (ascii "a = 1")).2).toParserState :=
  (readFile_eq_readString { errors := [(ascii "a =", 5)], rest := ascii " 1" } (by decide)).1 2

end Parser

end Eltn
