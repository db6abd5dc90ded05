import RustFits.TableHeader

/-!
# The header view

`FITSHeader` and `FITSHeaderEdit` of `header.rs`: the keyword forms, the cards
that a value is written as, the changes of a card list, and the two views that
bring a changed card list to disk.

* `normalizeKeyword` and `storageKeyword` are the two forms of a keyword,
  `isProtectedKey` the keywords the program manages itself.
* `parseValueWithContinue` reads a value, `buildCardFromValue` writes one.
* `setCardForKey`, `deleteCardForKey`, `appendCommentaryToCards` and
  `deleteCommentaryCards` change a card list.
* `HeaderMethod.run` is a mutating method as a change of a card list.  The header
  view runs it on a copy and rewrites the header (`headerCall`), the edit session
  on its own cards (`Editor`).

Texts are ASCII here.  The floating-point parser and printer of the standard
library are a parameter.
-/

namespace RustFits

open Ascii ByteFile Machine

namespace Header

/-! ## Keywords -/

def commentKey : Str := str "COMMENT"

def historyKey : Str := str "HISTORY"

def hierarchKey : Str := str "HIERARCH"

def continueKey : Str := str "CONTINUE"

def toAsciiUppercase (s : Str) : Str :=
  s.map fun b => if 0x61 ≤ b && b ≤ 0x7A then b - 0x20 else b

/-- `is_hierarch_key`. -/
def isHierarchKey (key : Str) : Bool := decide (8 < key.length) || key.contains blank

/-- The words of a text with one blank between two of them; `gap` says that white
space stands in front. -/
def joinWords : Bool → Str → Str
  | _, [] => []
  | gap, b :: rest =>
    if isWhitespace b then joinWords true rest
    else if gap then blank :: b :: joinWords false rest
    else b :: joinWords false rest

/-- `collapse_whitespace`. -/
def collapseWhitespace (s : Str) : Str := joinWords false (trimStart s)

/-- `normalize_keyword`, the form for lookups. -/
def normalizeKeyword (key : Str) : Str :=
  if isHierarchKey (trim key) then toAsciiUppercase (collapseWhitespace (trim key))
  else toAsciiUppercase (trim key)

/-- `storage_keyword`, the form on disk. -/
def storageKeyword (key : Str) : Str :=
  if isHierarchKey (trim key) then collapseWhitespace (trim key)
  else toAsciiUppercase (trim key)

def literalProtected : List Str :=
  [str "SIMPLE", str "XTENSION", str "EXTEND", str "BITPIX", str "NAXIS", str "PCOUNT",
    str "GCOUNT", str "END", str "TFIELDS", str "THEAP", str "GROUPS", str "ZIMAGE",
    str "ZCMPTYPE", str "ZBITPIX", str "ZNAXIS", str "ZSIMPLE", str "ZEXTEND", str "ZBLOCKED",
    str "ZPCOUNT", str "ZGCOUNT", str "ZHECKSUM", str "ZDATASUM", str "ZTENSION",
    str "ZQUANTIZ", str "ZDITHER0", str "ZMASKCMP", str "ZBLANK", str "CHECKSUM",
    str "DATASUM"]

def indexedPrefixes : List Str :=
  [str "NAXIS", str "TFORM", str "TDIM", str "TTYPE", str "TSCAL", str "TZERO", str "TNULL",
    str "TBCOL", str "PTYPE", str "PSCAL", str "PZERO", str "ZNAXIS", str "ZTILE", str "ZNAME",
    str "ZVAL"]

/-- `is_protected_key`. -/
def isProtectedKey (key : Str) : Bool :=
  literalProtected.contains key || indexedPrefixes.any fun p =>
    p.isPrefixOf key && !(key.drop p.length).isEmpty && (key.drop p.length).all isDigit

def isAlphabetic (b : UInt8) : Bool := (0x41 ≤ b && b ≤ 0x5A) || (0x61 ≤ b && b ≤ 0x7A)

/-- A character that a keyword may have. -/
def isKeywordChar (hierarch : Bool) (b : UInt8) : Bool :=
  isAlphabetic b || isDigit b || b == 0x2D || b == 0x5F ||
    (hierarch && (b == blank || b == 0x2E || b == 0x2B))

/-- `validate_keyword`. -/
def validateKeyword (key : Str) : Except PyErr Unit :=
  if key.isEmpty then .error (.value (str "keyword cannot be empty"))
  else if toAsciiUppercase key = hierarchKey then
    .error (.value (str "'HIERARCH' is not a valid user keyword; HIERARCH is the convention " ++
      str "prefix for long keys " ++ emDash ++
      str " pass a longer key (>8 chars or containing spaces) instead"))
  else
    match key.find? fun c => !isKeywordChar (isHierarchKey key) c with
    | none => .ok ()
    | some c => .error (.value (str "keyword '" ++ key ++ str "' contains invalid character '" ++
        [c] ++ str "' (standard keys allow A-Z/a-z, 0-9, '-', '_'; " ++
        str "HIERARCH long keys additionally allow ' ', '.', '+')"))

/-! ## Cards -/

/-- What follows the first equals sign. -/
def afterEquals (s : Str) : Option Str :=
  match s.dropWhile fun b => b != 0x3D with
  | [] => none
  | _ :: value => some value

/-- `keyword_of`. -/
def keywordOf (card : Card) : Option Str :=
  let card := trimEnd card
  if card.isEmpty then none
  else
    let trimmed := trim (card.take 8)
    if trimmed = hierarchKey then
      let keyword := trim ((card.takeWhile fun b => b != 0x3D).drop 8)
      if (afterEquals card).isSome && !keyword.isEmpty then some keyword else some hierarchKey
    else some trimmed

/-- The keywords of cards that hold no value under a keyword of their own. -/
def skippedKeys : List Str := [str "END", commentKey, historyKey, [], continueKey]

/-- The card holds the keyword with this lookup form. -/
def matchesKey (key : Str) (card : Card) : Bool :=
  match keywordOf card with
  | none => false
  | some k => !skippedKeys.contains k && decide (normalizeKeyword k = key)

/-- The text in front of the first slash outside quotes, and the text behind it. -/
def cutComment : Bool → Str → Str × Str
  | _, [] => ([], [])
  | inString, b :: rest =>
    if b = 0x27 then (b :: (cutComment (!inString) rest).1, (cutComment (!inString) rest).2)
    else if b = 0x2F && !inString then ([], rest)
    else (b :: (cutComment inString rest).1, (cutComment inString rest).2)

/-- `split_value_comment`. -/
def splitValueComment (valuePart : Str) : Str × Str :=
  (trim (cutComment false valuePart).1, trim (cutComment false valuePart).2)

/-- The value is a quoted string. -/
def isQuoted (raw : Str) : Bool :=
  raw.head? == some 0x27 && raw.getLast? == some 0x27 && decide (2 ≤ raw.length)

/-- The text between the quotes. -/
def innerText (raw : Str) : Str := raw.tail.dropLast

/-- Doubled quotes, undone from left to right. -/
def undoubleQuotes : Str → Str
  | [] => []
  | [b] => [b]
  | b :: c :: rest =>
    if b = 0x27 ∧ c = 0x27 then 0x27 :: undoubleQuotes rest else b :: undoubleQuotes (c :: rest)

/-- `extract_fits_string`. -/
def extractFitsString (raw : Str) : Str := trimEnd (undoubleQuotes (innerText raw))

def doubleQuotes (s : Str) : Str := s.flatMap fun b => if b = 0x27 then [0x27, 0x27] else [b]

/-- The text behind a keyword of eight bytes. -/
def afterKeyword (card : Card) : Str := card.drop 8

/-! ## Values -/

/-- The floating-point numbers of the standard library. -/
structure Floats (F : Type) where
  isFinite : F → Bool
  display : F → Str
  parse : Str → Option F

/-- A header value.  `undefined` is the value of a card without one. -/
inductive HeaderValue (F : Type) where
  | logical (b : Bool)
  | integer (n : Int)
  | complex (re im : F)
  | real (x : F)
  | string (s : Str)
  | undefined
  deriving DecidableEq, Repr

variable {F : Type} (floats : Floats F)

/-- `format_fits_float`. -/
def formatFitsFloat (x : F) : Str :=
  let s := floats.display x
  if !floats.isFinite x then s
  else if s.contains 0x2E || s.contains 0x65 || s.contains 0x45 then s
  else s ++ str ".0"

/-- `parse_fits_float`: D is an exponent sign too. -/
def parseFitsFloat (s : Str) : Option F :=
  floats.parse (s.map fun b => if b = 0x44 then 0x45 else if b = 0x64 then 0x65 else b)

/-- `parse_fits_complex`. -/
def parseFitsComplex (raw : Str) : Option (F × F) :=
  if raw.head? == some 0x28 && raw.getLast? == some 0x29 && decide (2 ≤ raw.length) then
    let inner := innerText raw
    match inner.dropWhile fun b => b != 0x2C with
    | [] => none
    | _ :: second => do
      let re ← parseFitsFloat floats (trim (inner.takeWhile fun b => b != 0x2C))
      let im ← parseFitsFloat floats (trim second)
      return (re, im)
  else none

/-- The value of a string with its continuation cards: the text read so far, the
comment read so far, the cards that follow. -/
def readContinued : Str → Str → List Card → Str × Str
  | s, comment, [] => (s, comment)
  | s, comment, next :: rest =>
    let raw := splitValueComment (afterKeyword (trimEnd next))
    if s.getLast? == some 0x26 && continueKey.isPrefixOf (trimEnd next) && isQuoted raw.1 then
      readContinued (s.dropLast ++ extractFitsString raw.1)
        (if raw.2.isEmpty then comment
          else if comment.isEmpty then raw.2 else comment ++ [blank] ++ raw.2) rest
    else (s, comment)

/-- `parse_value_with_continue`, with the cards behind the one at hand. -/
def parseValueWithContinue (following : List Card) (valuePart : Str) : HeaderValue F × Str :=
  let raw := splitValueComment valuePart
  if raw.1.isEmpty then (.undefined, raw.2)
  else if isQuoted raw.1 then
    let text := readContinued (extractFitsString raw.1) raw.2 following
    (.string text.1, text.2)
  else if raw.1 = str "T" then (.logical true, raw.2)
  else if raw.1 = str "F" then (.logical false, raw.2)
  else
    match parseFitsComplex floats raw.1 with
    | some (re, im) => (.complex re im, raw.2)
    | none =>
      match parseI64 raw.1 with
      | some n => (.integer n, raw.2)
      | none =>
        match parseFitsFloat floats raw.1 with
        | some x => (.real x, raw.2)
        | none => (.string raw.1, raw.2)

/-- `find_card_for_key`: the cards behind the card, and the text behind its
equals sign. -/
def findCardForKey : List Card → Str → Option (List Card × Str)
  | [], _ => none
  | card :: rest, key =>
    let card := trimEnd card
    let field := trim (card.take 8)
    if card.isEmpty || skippedKeys.contains field then findCardForKey rest key
    else
      let keyword :=
        if field = hierarchKey then trim ((card.takeWhile fun b => b != 0x3D).drop 8) else field
      match afterEquals card with
      | some value =>
        if normalizeKeyword keyword = key then some (rest, value) else findCardForKey rest key
      | none => findCardForKey rest key

/-- `extract_existing_comment`. -/
def extractExistingComment (cards : List Card) (key : Str) : Option Str :=
  (findCardForKey cards key).map fun found => (parseValueWithContinue floats found.1 found.2).2

/-! ## Building cards -/

/-- The card has room for its text only. -/
def lastPayload (comment : Str) : Nat := if comment.isEmpty then 68 else 65 - comment.length

/-- The length of a chunk of at most `n` bytes that does not cut a doubled quote. -/
def chunkLength (rest : Str) : Nat → Nat
  | 0 => 0
  | n + 1 =>
    if n + 1 < rest.length ∧ rest.getD n 0 = 0x27 ∧ rest.getD (n + 1) 0 = 0x27 then
      chunkLength rest n
    else n + 1

/-- A chunk is never empty. -/
def chunkSize (rest : Str) (n : Nat) : Nat :=
  if chunkLength rest n = 0 then min 2 rest.length else chunkLength rest n

def withComment (body comment : Str) : Str :=
  if comment.isEmpty then body else body ++ str " / " ++ comment

/-- The continuation cards of a long string.  Every card takes at least one byte,
so the number of bytes bounds the number of cards. -/
def continueCards (comment : Str) : Nat → Str → List Card
  | 0, _ => []
  | fuel + 1, rest =>
    if rest.isEmpty then []
    else if rest.length ≤ lastPayload comment then
      [padToCard (withComment (str "CONTINUE  '" ++ rest ++ str "'") comment)]
    else
      let n := chunkSize rest (min (rest.length - lastPayload comment) 67)
      padToCard (str "CONTINUE  '" ++ rest.take n ++ str "&'") ::
        continueCards comment fuel (rest.drop n)

/-- `card_string`. -/
def cardString (key value comment : Str) : Card :=
  let head := padRight 8 key ++ str "= '" ++ padRight 8 (doubleQuotes value) ++ str "'"
  padToCard
    (if comment.isEmpty then head
      else if head.length ≤ 31 then padRight 31 head ++ str "/ " ++ comment
      else head ++ str " / " ++ comment)

/-- `build_string_value_cards`. -/
def buildStringValueCards (key value comment : Str) : Except PyErr (List Card) :=
  let escaped := doubleQuotes value
  if !comment.isEmpty && decide (65 ≤ comment.length) then
    .error (.value (str "comment is too long (" ++ natDec comment.length ++
      str " chars) to fit in a FITS card alongside a string value; " ++
      str "max comment length is 64 chars for CONTINUE-chained values"))
  else if escaped.length ≤ lastPayload comment then .ok [cardString key value comment]
  else
    let n := chunkSize escaped (min (escaped.length - lastPayload comment) 67)
    .ok (padToCard (padRight 8 key ++ str "= '" ++ escaped.take n ++ str "&'") ::
      continueCards comment escaped.length (escaped.drop n))

/-- `card_float`. -/
def cardFloat (key : Str) (value : F) (comment : Str) : Card :=
  cardFixed key (formatFitsFloat floats value) comment

/-- The text of a complex value. -/
def complexText (re im : F) : Str :=
  str "(" ++ formatFitsFloat floats re ++ str ", " ++ formatFitsFloat floats im ++ str ")"

/-- `card_complex`. -/
def cardComplex (key : Str) (re im : F) (comment : Str) : Except PyErr Card :=
  let body := withComment (padRight 8 key ++ str "= " ++ complexText floats re im) comment
  if cardSize < body.length then
    .error (.value (str "complex card too long (" ++ natDec body.length ++
      str " chars) for key '" ++ key ++ str "'; shorten the comment"))
  else .ok (padToCard body)

/-- `assemble_hierarch_single`. -/
def assembleHierarchSingle (key value comment : Str) : Except PyErr (List Card) :=
  let body := withComment (str "HIERARCH " ++ key ++ str " = " ++ value) comment
  if cardSize < body.length then
    .error (.value (str "HIERARCH card too long (" ++ natDec body.length ++
      str " chars) for key '" ++ key ++
      str "'; shorten the key, value, or comment to fit in 80 chars"))
  else .ok [padToCard body]

/-- `build_hierarch_string_cards`. -/
def buildHierarchStringCards (key value comment : Str) : Except PyErr (List Card) :=
  let escaped := doubleQuotes value
  let body :=
    withComment (str "HIERARCH " ++ key ++ str " = '" ++ padRight 8 escaped ++ str "'") comment
  if body.length ≤ cardSize then .ok [padToCard body]
  else if escaped.isEmpty then
    .error (.value (str "HIERARCH card too long (" ++ natDec body.length ++
      str " chars) for key '" ++ key ++ str "'; shorten the key or comment"))
  else if 65 ≤ key.length then
    .error (.value (str "HIERARCH key '" ++ key ++ str "' is " ++ natDec key.length ++
      str " chars; max length for a CONTINUE-chained HIERARCH string value is 64 chars " ++
      str "(the first card must have at least one byte of payload alongside framing)"))
  else if !comment.isEmpty && decide (65 ≤ comment.length) then
    .error (.value (str "comment is too long (" ++ natDec comment.length ++
      str " chars) to fit in a FITS card alongside a HIERARCH string value; " ++
      str "max comment length is 64 chars for CONTINUE-chained values"))
  else
    let n := chunkSize escaped (min (65 - key.length) escaped.length)
    let rest := escaped.drop n
    .ok (padToCard (str "HIERARCH " ++ key ++ str " = '" ++ escaped.take n ++ str "&'") ::
      if rest.isEmpty then [padToCard (withComment (str "CONTINUE  ''") comment)]
      else continueCards comment escaped.length rest)

/-- `build_hierarch_cards`. -/
def buildHierarchCards (key : Str) (value : HeaderValue F) (comment : Str) :
    Except PyErr (List Card) :=
  match value with
  | .logical b => assembleHierarchSingle key (if b then str "T" else str "F") comment
  | .integer n => assembleHierarchSingle key (intDec n) comment
  | .complex re im => assembleHierarchSingle key (complexText floats re im) comment
  | .real x => assembleHierarchSingle key (formatFitsFloat floats x) comment
  | .string s => buildHierarchStringCards key s comment
  | .undefined =>
    .error (.value (str "unsupported value type for HIERARCH key '" ++ key ++
      str "'; supported: bool, int, float, complex, str"))

/-- `build_card_from_value`. -/
def buildCardFromValue (key : Str) (value : HeaderValue F) (comment : Str) :
    Except PyErr (List Card) :=
  if isHierarchKey key then buildHierarchCards floats key value comment
  else
    match value with
    | .logical b => .ok [cardLogical key b comment]
    | .integer n => .ok [cardInt key n comment]
    | .complex re im => (cardComplex floats key re im comment).map fun card => [card]
    | .real x => .ok [cardFloat floats key x comment]
    | .string s => buildStringValueCards key s comment
    | .undefined =>
      .error (.value (str "unsupported value type for key '" ++ key ++
        str "'; supported types: bool, int, float, complex, str"))

/-! ## Changing a card list -/

/-- `card_value_ends_with_amp`. -/
def cardValueEndsWithAmp (card : Card) : Bool :=
  let trimmed := trimEnd card
  let valuePart :=
    if continueKey.isPrefixOf trimmed then some (trimmed.drop continueKey.length)
    else afterEquals trimmed
  match valuePart with
  | none => false
  | some value =>
    isQuoted (splitValueComment value).1 &&
      (innerText (splitValueComment value).1).getLast? == some 0x26

/-- How many of the cards behind `prev` continue it. -/
def chainLength : Card → List Card → Nat
  | _, [] => 0
  | prev, next :: rest =>
    if cardValueEndsWithAmp prev && continueKey.isPrefixOf (trimEnd next) then
      chainLength next rest + 1
    else 0

/-- `find_chain_end`. -/
def findChainEnd (cards : List Card) (start : Nat) : Nat :=
  start + 1 + chainLength (cards.getD start []) (cards.drop (start + 1))

/-- The place of END. -/
def endPosition (cards : List Card) : Nat :=
  (cards.findIdx? fun c => decide (trimEnd c = endCard)).getD cards.length

/-- Replace the cards from `start` up to `stop`. -/
def spliceCards (start stop : Nat) (new cards : List Card) : List Card :=
  cards.take start ++ new ++ cards.drop stop

/-- `set_card_for_key`. -/
def setCardForKey (cards : List Card) (key : Str) (newCards : List Card) : List Card :=
  let normalized := newCards.map trimEnd
  match cards.findIdx? (matchesKey key) with
  | some start => spliceCards start (findChainEnd cards start) normalized cards
  | none => spliceCards (endPosition cards) (endPosition cards) normalized cards

/-- `delete_card_for_key`: `none` when there is no such card. -/
def deleteCardForKey (cards : List Card) (key : Str) : Option (List Card) :=
  (cards.findIdx? (matchesKey key)).map fun start =>
    spliceCards start (findChainEnd cards start) [] cards

/-- `existing_storage_keyword`.  A blank card ends the search. -/
def existingStorageKeyword : List Card → Str → Option Str
  | [], _ => none
  | card :: rest, lookup =>
    match keywordOf card with
    | none => none
    | some kw =>
      if !skippedKeys.contains kw && decide (normalizeKeyword kw = lookup) then
        some (storageKeyword kw)
      else existingStorageKeyword rest lookup

/-- `card_matches_commentary_keyword`. -/
def cardMatchesCommentaryKeyword (keyword : Str) (card : Card) : Bool :=
  let trimmed := trimEnd card
  if keyword.isEmpty then decide (8 < trimmed.length) && (trim (trimmed.take 8)).isEmpty
  else !trimmed.isEmpty && decide (trim (trimmed.take 8) = keyword)

/-- The text in chunks of 72 bytes. -/
def textChunks : Nat → Str → List Str
  | 0, _ => []
  | fuel + 1, text => if text.isEmpty then [] else text.take 72 :: textChunks fuel (text.drop 72)

/-- `make_commentary_cards`. -/
def makeCommentaryCards (keyword text : Str) : List Card :=
  if text.isEmpty then [padToCard (padRight 8 keyword)]
  else (textChunks text.length text).map fun chunk => padToCard (padRight 8 keyword ++ chunk)

/-- The place behind the last commentary card of the keyword. -/
def commentaryPosition (keyword : Str) (cards : List Card) : Nat :=
  match cards.reverse.findIdx? (cardMatchesCommentaryKeyword keyword) with
  | some i => cards.length - i
  | none => endPosition cards

/-- `append_commentary_to_cards`. -/
def appendCommentaryToCards (cards : List Card) (keyword text : Str) : List Card :=
  spliceCards (commentaryPosition keyword cards) (commentaryPosition keyword cards)
    ((makeCommentaryCards keyword text).map trimEnd) cards

/-- `delete_commentary_cards`. -/
def deleteCommentaryCards (cards : List Card) (keyword : Str) : List Card :=
  cards.filter fun card => !cardMatchesCommentaryKeyword keyword card

/-- `validate_commentary_text`. -/
def validateCommentaryText (text : Str) : Except PyErr Unit :=
  match text.find? fun b => !isPrintable b with
  | none => .ok ()
  | some b =>
    .error (.value (str "commentary text contains non-printable character (0x" ++
      [hexDigit (b.toNat / 16), hexDigit (b.toNat % 16)] ++
      str "); FITS restricts cards to ASCII 0x20-0x7E"))

/-! ## The mutating methods -/

/-- A change of a card list.  It leaves a card list behind also when it raises. -/
abbrev CardOp (α : Type) := EStateM PyErr (List Card) α

/-- Raise the error of a pure step. -/
def CardOp.ofExcept {α : Type} : Except PyErr α → CardOp α
  | .ok a => pure a
  | .error e => throw e

/-- `apply_setitem`. -/
def applySetitem (key : Str) (value : HeaderValue F) (explicitComment : Option Str) :
    CardOp Unit := do
  CardOp.ofExcept (validateKeyword key)
  let cards ← get
  let lookup := normalizeKeyword key
  let comment := explicitComment.getD ((extractExistingComment floats cards lookup).getD [])
  let storage := (existingStorageKeyword cards lookup).getD (storageKeyword key)
  let newCards ← CardOp.ofExcept (buildCardFromValue floats storage value comment)
  set (setCardForKey cards lookup newCards)

def notInHeader (key : Str) : PyErr := .key (str "'" ++ key ++ str "' not in header")

/-- The keys of the commentary cards. -/
def isCommentaryKey (key : Str) : Bool :=
  decide (key = commentKey) || decide (key = historyKey) || key.isEmpty

/-- `apply_set_comment`. -/
def applySetComment (key comment : Str) : CardOp Unit := do
  let lookup := normalizeKeyword key
  if isCommentaryKey lookup then
    throw (.value (str "set_comment() is not defined for commentary keys " ++
      str "(COMMENT/HISTORY/blank); those cards ARE their text"))
  if isProtectedKey lookup then
    throw (.value (str "'" ++ lookup ++ str "' is a protected keyword managed by rustfits (file " ++
      str "structure, integrity, or compression layout); its comment cannot be set because " ++
      str "rustfits may rewrite the card"))
  match findCardForKey (← get) lookup with
  | none => throw (notInHeader lookup)
  | some (following, valuePart) =>
    match (parseValueWithContinue floats following valuePart).1 with
    | .undefined =>
      throw (.value (str "'" ++ lookup ++
        str "' has an undefined (valueless) card; set_comment() " ++
        str "has no value to preserve " ++ emDash ++
        str " assign a value first with header[key] = (value, comment)"))
    | value => applySetitem floats key value (some comment)

/-- `UpdateAction`. -/
inductive UpdateAction (F : Type) where
  | setKey (key : Str) (value : HeaderValue F) (explicitComment : Option Str)
  | appendCommentary (keyword text : Str)
  deriving DecidableEq, Repr

/-- The argument of an update: the cards of a header, or the pairs of a mapping
with the comment of a pair. -/
inductive UpdateSource (F : Type) where
  | header (cards : List Card)
  | mapping (items : List (Str × HeaderValue F × Option Str))
  deriving DecidableEq, Repr

/-- The actions for the cards of a header. -/
def headerActions (copyCommentary : Bool) : List Card → List (UpdateAction F)
  | [] => []
  | card :: rest =>
    let trimmed := trimEnd card
    let field := trim (trimmed.take 8)
    let keyword := (keywordOf card).getD []
    let action : List (UpdateAction F) :=
      if trimmed.isEmpty || decide (field = str "END") || decide (field = continueKey) then []
      else if isCommentaryKey field then
        if copyCommentary then [.appendCommentary field (trimEnd (afterKeyword card))] else []
      else if keyword.isEmpty || isProtectedKey (normalizeKeyword keyword) then []
      else
        match afterEquals trimmed with
        | none => []
        | some valuePart =>
          let parsed := parseValueWithContinue floats rest valuePart
          [.setKey keyword parsed.1 (some parsed.2)]
    action ++ headerActions copyCommentary rest

/-- The actions for the pairs of a mapping. -/
def mappingActions :
    List (Str × HeaderValue F × Option Str) → Except PyErr (List (UpdateAction F))
  | [] => .ok []
  | (key, value, comment) :: rest =>
    let k := normalizeKeyword key
    if isCommentaryKey k then
      .error (.value (str "update() does not accept commentary key '" ++ k ++
        str "'; use add_comment(text) / add_history(text) / add_blank(text) to append " ++
        str "commentary cards"))
    else if isProtectedKey k then
      .error (.value (str "'" ++ k ++ str "' is a protected keyword managed by rustfits (file " ++
        str "structure, integrity, or compression layout) and cannot be set via update(); " ++
        str "structural changes should go through the dedicated HDU APIs"))
    else (mappingActions rest).map fun actions => .setKey key value comment :: actions

/-- `collect_update_actions`. -/
def collectUpdateActions (source : UpdateSource F) (copyCommentary : Bool) :
    Except PyErr (List (UpdateAction F)) :=
  match source with
  | .header cards => .ok (headerActions floats copyCommentary cards)
  | .mapping items => mappingActions items

def UpdateAction.apply : UpdateAction F → CardOp Unit
  | .setKey key value comment => applySetitem floats key value comment
  | .appendCommentary keyword text =>
    modify fun cards => appendCommentaryToCards cards keyword text

/-- The mutating methods of a header view and of an edit session. -/
inductive HeaderMethod (F : Type) where
  | setItem (key : Str) (value : HeaderValue F) (explicitComment : Option Str)
  | delItem (key : Str)
  | addComment (text : Str)
  | addHistory (text : Str)
  | addBlank (text : Str)
  | setComment (key comment : Str)
  | update (source : UpdateSource F) (copyCommentary : Bool)
  deriving DecidableEq, Repr

/-- `__setitem__`. -/
def headerSetItem (key : Str) (value : HeaderValue F) (explicitComment : Option Str) :
    CardOp Unit := do
  let normalized := normalizeKeyword key
  if isCommentaryKey normalized then
    throw (.value (str "subscript assignment to commentary key '" ++ normalized ++
      str "' is not supported; use add_comment(text) / add_history(text) / " ++
      str "add_blank(text) to append"))
  if isProtectedKey normalized then
    throw (.value (str "'" ++ normalized ++ str "' is a protected keyword managed by rustfits " ++
      str "(file structure, integrity, or compression layout) and cannot be set directly; " ++
      str "structural changes should go through the dedicated HDU APIs"))
  applySetitem floats key value explicitComment

/-- `__delitem__`. -/
def headerDelItem (key : Str) : CardOp Unit := do
  let key := normalizeKeyword key
  if isProtectedKey key then
    throw (.value (str "'" ++ key ++
      str "' is a protected keyword managed by rustfits and cannot " ++
      str "be deleted directly; structural changes should go through the dedicated HDU APIs"))
  let cards ← get
  if isCommentaryKey key then
    let kept := deleteCommentaryCards cards key
    if kept.length < cards.length then set kept else throw (notInHeader key)
  else
    match deleteCardForKey cards key with
    | some kept => set kept
    | none => throw (notInHeader key)

/-- `append_commentary`. -/
def appendCommentary (keyword text : Str) : CardOp Unit := do
  CardOp.ofExcept (validateCommentaryText text)
  modify fun cards => appendCommentaryToCards cards keyword text

/-- A method as a change of the cards.  The result says whether a header view
rewrites its header afterwards: an update without actions does not. -/
def HeaderMethod.run : HeaderMethod F → CardOp Bool
  | .setItem key value comment => do
    headerSetItem floats key value comment
    return true
  | .delItem key => do
    headerDelItem key
    return true
  | .addComment text => do
    appendCommentary commentKey text
    return true
  | .addHistory text => do
    appendCommentary historyKey text
    return true
  | .addBlank text => do
    appendCommentary [] text
    return true
  | .setComment key comment => do
    applySetComment floats key comment
    return true
  | .update source copyCommentary => do
    let actions ← CardOp.ofExcept (collectUpdateActions floats source copyCommentary)
    actions.forM (UpdateAction.apply floats)
    return !actions.isEmpty

/-! ## The two views -/

/-- Rewrite the header of an HDU and commit the cards. -/
def rewriteAndCommit (idx : Nat) (cards : List Card) : FileOp Unit := do
  rewriteHeaderToDisk idx cards
  commitCards idx cards

/-- A mutating method of the header view of HDU `idx`. -/
def headerCall (idx : Nat) (m : HeaderMethod F) : FileOp Unit := do
  match (← get).hdus[idx]? with
  | none => throw (.io (str "no such HDU"))
  | some h =>
    match m.run floats h.cards with
    | .error e _ => throw e
    | .ok true cards => rewriteAndCommit idx cards
    | .ok false _ => pure ()

/-- `FITSHeaderEdit`: the HDU of its parent, the staged cards, the two flags. -/
structure HeaderEdit where
  hdu : Nat
  cards : List Card
  entered : Bool
  committed : Bool
  deriving DecidableEq, Repr

/-- An open file with the edit sessions that were opened on it. -/
structure Editor where
  fits : Fits
  edits : List HeaderEdit
  deriving DecidableEq, Repr

/-- A call that can change a header: a method of a header view, or one of the
session `i`. -/
inductive Call (F : Type) where
  | header (idx : Nat) (m : HeaderMethod F)
  | edit (idx : Nat)
  | enter (i : Nat)
  | stage (i : Nat) (m : HeaderMethod F)
  | exit (i : Nat) (raised : Bool)
  deriving DecidableEq, Repr

/-- Change the session `i`. -/
def Editor.setEdit (i : Nat) (edit : HeaderEdit) (e : Editor) : Editor :=
  { e with edits := e.edits.set i edit }

/-- `ensure_active`. -/
def HeaderEdit.ensureActive (edit : HeaderEdit) : Except PyErr Unit :=
  if !edit.entered then
    .error (.value (str "FITSHeaderEdit must be used inside a `with header.edit():` block"))
  else if edit.committed then .error (.value (str "FITSHeaderEdit has already been committed"))
  else .ok ()

/-- What a call leaves behind, also when it raises. -/
def Call.perform (call : Call F) (e : Editor) : Editor :=
  match call with
  | .header idx m =>
    match headerCall floats idx m e.fits with
    | .ok _ s => { e with fits := s }
    | .error _ s => { e with fits := s }
  | .edit idx =>
    match e.fits.hdus[idx]? with
    | none => e
    | some h => { e with edits := e.edits ++ [⟨idx, h.cards, false, false⟩] }
  | .enter i =>
    match e.edits[i]? with
    | none => e
    | some session => e.setEdit i { session with entered := true }
  | .stage i m =>
    match e.edits[i]? with
    | none => e
    | some session =>
      match session.ensureActive with
      | .error _ => e
      | .ok _ =>
        match m.run floats session.cards with
        | .ok _ cards => e.setEdit i { session with cards := cards }
        | .error _ cards => e.setEdit i { session with cards := cards }
  | .exit i raised =>
    match e.edits[i]? with
    | none => e
    | some session =>
      let left := { session with entered := false }
      if session.entered && !raised && !session.committed then
        match rewriteAndCommit session.hdu session.cards e.fits with
        | .ok _ s => { e with fits := s, edits := e.edits.set i { left with committed := true } }
        | .error _ s => { e with fits := s, edits := e.edits.set i left }
      else e.setEdit i left

end Header

end RustFits
