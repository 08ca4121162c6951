import Eltn.Buffer.Source
import Eltn.Lexer.Tokens
import Eltn.Parser.Refines

/-!
# Parsing bytes

`ELTN_Parser` reads from its own buffer through its own lexer. Whatever fills the buffer, the parser
goes through the states of the parser on the stream of the tokens of the bytes (`after_scan`); so it
makes no difference how a reader cuts the input (`read_eq_readString`).
-/

namespace Eltn

/-- The tokens of bytes, in memory: what a lexer of the bytes delivers, with the end of the input
behind all of them. -/
def Scan.stream (src : Bytes) : Stream where
  rest := Scan.lexemesUpTo src src.length src
  final := Scan.final src
  token_ne := Scan.token_ne src src.length src
  final_token := rfl

namespace Parser

/-- **The parser refines the parser on tokens in memory**, whatever source the characters come
from. -/
theorem after_scan {σ : Type} (cs : CharSource σ) {s : σ} (hs : cs.Ok s)
    (hlen : (cs.bytes s).length < 2 ^ 31) (n : Nat) :
    ((new ({ source := s } : Lexer σ)).after (.ofLexer cs) n).toParserState =
      ((new (Scan.stream (cs.bytes s))).after .stream n).toParserState := by
  have hready : Lexer.Ready cs (cs.bytes s) (cs.bytes s) { source := s } := Lexer.ready_new hs
  have hsim : Sim (.ofLexer cs) .stream (new ({ source := s } : Lexer σ))
      (new (Scan.stream (cs.bytes s))) := by
    refine ⟨rfl, ⟨_, _, hlen, hready⟩, trivial, ?_, ?_, rfl⟩
    · exact hready.lexemes_eq hlen
    · exact hready.final_eq hlen
  exact (hsim.after n).state_eq

/-! ## Reading -/

/-- `ELTN_Parser_new` (`eparser.c:89`), when its allocations succeed. -/
def create : Parser (Lexer Buffer) := new { source := Buffer.new }

/-- `ELTN_Parser_next` (`eparser.c:518`). -/
def nextEvent (self : Parser (Lexer Buffer)) : Parser (Lexer Buffer) :=
  self.next (.ofLexer .ofBuffer)

/-- `ELTN_Parser_read` (`eparser.c:142`), with a reader that is not `NULL`: the buffer of the lexer
takes it over and is filled for the first time. -/
def read (reader : List ReaderResult) (self : Parser (Lexer Buffer)) :
    Int × Parser (Lexer Buffer) :=
  let result := self.lexer.source.read reader
  (result.1, { self with lexer := { self.lexer with source := result.2 } })

/-- `ELTN_Parser_read_string` (`eparser.c:147`). -/
def readString (text : Bytes) (self : Parser (Lexer Buffer)) : Int × Parser (Lexer Buffer) :=
  let result := self.lexer.source.write true text
  (result.1, { self with lexer := { self.lexer with source := result.2.close } })

/-- A reader that hands out chunks, without errors. -/
def chunkReader (chunks : List Bytes) : List ReaderResult := chunks.map ({ text := some · })

section
variable {chunks : List Bytes} {text : Bytes}

/-- The buffer behind the first call of the reader delivers all chunks, as if they were one text.
The first call moves the first chunk into the buffer, and the reader has the others; without chunks
it closes the buffer. -/
theorem read_feeds (h : chunks.flatten.length < 2 ^ 29) :
    (Buffer.new.read (chunkReader chunks)).2.Feeds ∧
      (Buffer.new.read (chunkReader chunks)).2.bytes = chunks.flatten := by
  have hbytes : Buffer.bytes { Buffer.new with reader := some (chunkReader chunks) } =
      chunks.flatten := by
    have hpending : (chunkReader chunks).flatMap (·.text.getD []) = chunks.flatten := by
      rw [chunkReader, List.flatMap_map, ← List.flatMap_id]
      rfl
    exact hpending
  have hfeeds : Buffer.Feeds { Buffer.new with reader := some (chunkReader chunks) } := by
    refine ⟨Buffer.new_sound.setReader _, hbytes ▸ h, ?_⟩
    intro result hresult
    obtain ⟨t, -, rfl⟩ := List.mem_map.mp hresult
    exact ⟨t, rfl⟩
  rw [Buffer.read]
  cases chunks with
  | nil =>
    obtain ⟨hclose, hclosed⟩ := hfeeds.close
    rw [Buffer.readIntoBuffer_nil rfl]
    exact ⟨hclose, hclosed⟩
  | cons t chunks =>
    obtain ⟨b, hread, hb, hb', -⟩ := Buffer.readIntoBuffer_cons hfeeds rfl rfl
    rw [hread]
    exact ⟨hb, hb'.trans hbytes⟩

/-- The buffer behind `ELTN_Parser_read_string` delivers the text, as it is closed behind it. -/
theorem readString_feeds (h : text.length < 2 ^ 29) :
    (Buffer.new.write true text).2.close.Feeds ∧
      (Buffer.new.write true text).2.close.bytes = text := by
  obtain ⟨b, hwrite, hsound, hcontents, heof, hreader⟩ :=
    Buffer.write_feeds Buffer.new_sound (by rw [Buffer.new_contents]; exact h) rfl
  rw [Buffer.new_contents, List.nil_append] at hcontents
  have hfeeds : b.Feeds := by
    refine ⟨hsound, ?_, ?_⟩
    · rw [Buffer.bytes, Buffer.pending_none hreader, List.append_nil, hcontents]
      exact h
    · intro result hresult
      rw [hreader] at hresult
      cases hresult
  obtain ⟨hclose, hbytes⟩ := hfeeds.close
  rw [hwrite]
  exact ⟨hclose, hbytes.trans hcontents⟩

end

/-- **Parsing does not depend on how the input is cut into chunks.** For every list of chunks of
less than 2²⁹ bytes together: after every number of calls of `ELTN_Parser_next`, a caller sees the
same, whether `ELTN_Parser_read` reads the chunks from a reader or `ELTN_Parser_read_string` reads
them as one text. -/
theorem read_eq_readString (chunks : List Bytes) (h : chunks.flatten.length < 2 ^ 29) (n : Nat) :
    observe (nextEvent^[n] (create.read (chunkReader chunks)).2).toParserState =
      observe (nextEvent^[n] (create.readString chunks.flatten).2).toParserState := by
  obtain ⟨hread, hbytes⟩ := read_feeds h
  obtain ⟨hstring, hbytes'⟩ := readString_feeds h
  have hlen : ∀ b : Buffer, b.bytes = chunks.flatten → b.bytes.length < 2 ^ 31 := by
    intro b hb
    rw [hb]
    omega
  have hleft := after_scan .ofBuffer hread (hlen _ hbytes) n
  have hright := after_scan .ofBuffer hstring (hlen _ hbytes') n
  rw [show CharSource.ofBuffer.bytes _ = chunks.flatten from hbytes] at hleft
  rw [show CharSource.ofBuffer.bytes _ = chunks.flatten from hbytes'] at hright
  exact congrArg observe (hleft.trans hright.symm)

/-- The text `a = "x"`, cut inside the string. -/
theorem read_eq_readString_example :
    observe (nextEvent^[2]
        (create.read (chunkReader [ascii "a = \"", [], ascii "x\""])).2).toParserState =
      observe (nextEvent^[2] (create.readString (ascii "a = \"x\"")).2).toParserState :=
  read_eq_readString [ascii "a = \"", [], ascii "x\""] (by decide) 2

end Parser

end Eltn
