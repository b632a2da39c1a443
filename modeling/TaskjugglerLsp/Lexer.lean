import TaskjugglerLsp.Lib.Scanner
import TaskjugglerLsp.Parser

/-!
# The lexer

`lexer.l`: the rules of the scanner and their actions, `raw_yylex` over them, and the
wrapper `yylex`, which adds the statement terminators and the missing closing braces.
Keywords carry the codes of `grammar.y`; a counter of the scanner is a number, since
`yy_scan_string` passes the length of its input as an `int` and rejects what does not
fit (`yyScanString`).
-/

namespace TaskjugglerLsp

open Lib

/-! ### Tokens -/

def tkInteger : ℕ := 462
def tkFloat : ℕ := 463
def tkLbracket : ℕ := 468
def tkRbracket : ℕ := 469
def tkPlus : ℕ := 471
def tkMinus : ℕ := 472
def tkColon : ℕ := 474
def tkPercent : ℕ := 476
def tkDollar : ℕ := 477
def tkError : ℕ := 479
def tkEol : ℕ := 482

/-- The value of a token on the stack of the parser (`Token`). -/
structure Token where
  kind : ℕ
  start : LspPos
  stop : LspPos
  text : Option CStr
  deriving DecidableEq

/-- `(Token){0}`. -/
def Token.zero : Token := ⟨0, ⟨0, 0⟩, ⟨0, 0⟩, none⟩

/-- The keyword rules, in the order of `lexer.l`. -/
def keywords : List (String × ℕ) :=
  [("account", 261), ("accountprefix", 299), ("accountreport", 300), ("accountroot", 301),
    ("active", 302), ("adopt", 303), ("aggregate", 304), ("alert", 305), ("alertlevels", 306),
    ("allocate", 273), ("alternative", 307), ("author", 308), ("auxdir", 309), ("balance", 310),
    ("booking", 284), ("caption", 311), ("cellcolor", 312), ("celltext", 313), ("center", 314),
    ("charge", 315), ("chargeset", 316), ("columns", 317), ("complete", 281), ("copyright", 318),
    ("credits", 319), ("currency", 291), ("currencyformat", 320), ("dailymax", 321),
    ("dailymin", 322), ("dailyworkinghours", 323), ("date", 324), ("definitions", 325),
    ("depends", 271), ("details", 326), ("disabled", 327), ("duration", 268), ("efficiency", 287),
    ("effort", 267), ("effortdone", 328), ("effortleft", 329), ("email", 330), ("enabled", 331),
    ("end", 275), ("endcredit", 332), ("epilog", 333), ("export", 334), ("extend", 335),
    ("fail", 336), ("flags", 265), ("fontcolor", 337), ("footer", 338), ("formats", 339),
    ("gapduration", 340), ("gaplength", 341), ("halign", 342), ("hasalert", 343), ("header", 344),
    ("headline", 345), ("height", 346), ("hideaccount", 347), ("hidejournalentry", 348),
    ("hidereport", 349), ("hideresource", 350), ("hidetask", 351), ("icalreport", 352),
    ("include", 264), ("inherit", 353), ("isactive", 354), ("ischildof", 355),
    ("isdependencyof", 356), ("isdutyof", 357), ("isfeatureof", 358), ("isleaf", 359),
    ("ismilestone", 360), ("isongoing", 361), ("isresource", 362), ("isresponsibilityof", 363),
    ("istask", 364), ("isvalid", 365), ("journalattributes", 366), ("journalentry", 367),
    ("journalmode", 368), ("leaveallowances", 369), ("leaves", 289), ("left", 370),
    ("length", 269), ("limits", 371), ("listitem", 372), ("listtype", 373), ("loadunit", 374),
    ("macro", 263), ("managers", 375), ("mandatory", 376), ("markdate", 377), ("maxend", 278),
    ("maximum", 378), ("maxstart", 276), ("milestone", 270), ("minend", 279), ("minimum", 379),
    ("minstart", 277), ("monthlymax", 380), ("monthlymin", 381), ("navigator", 382),
    ("newtask", 383), ("nikureport", 384), ("note", 282), ("novevents", 385), ("now", 290),
    ("number", 386), ("numberformat", 387), ("onend", 388), ("onstart", 389), ("opennodes", 390),
    ("outputdir", 391), ("overtime", 392), ("period", 393), ("persistent", 394),
    ("precedes", 272), ("priority", 280), ("project", 258), ("projectid", 395),
    ("projectids", 396), ("projection", 397), ("prolog", 398), ("purge", 399), ("rate", 286),
    ("rawhtmlhead", 400), ("reference", 401), ("remaining", 402), ("replace", 403),
    ("reportprefix", 404), ("resource", 260), ("resourceattributes", 405),
    ("resourceprefix", 406), ("resourcereport", 407), ("resourceroot", 408), ("resources", 409),
    ("responsible", 283), ("richtext", 410), ("right", 411), ("rollupaccount", 412),
    ("rollupresource", 413), ("rolluptask", 414), ("scale", 415), ("scenario", 296),
    ("scenarios", 416), ("scenariospecific", 417), ("scheduled", 285), ("scheduling", 418),
    ("schedulingmode", 419), ("select", 420), ("selfcontained", 421), ("shift", 262),
    ("shifts", 422), ("shorttimeformat", 423), ("sloppy", 424), ("sortaccounts", 425),
    ("sortjournalentries", 426), ("sortresources", 427), ("sorttasks", 428), ("start", 274),
    ("startcredit", 429), ("status", 430), ("statussheet", 431), ("statussheetreport", 432),
    ("strict", 433), ("summary", 434), ("supplement", 266), ("tagfile", 435), ("task", 259),
    ("taskattributes", 436), ("taskprefix", 437), ("taskreport", 438), ("taskroot", 439),
    ("text", 440), ("textreport", 441), ("timeformat", 292), ("timeformat1", 442),
    ("timeformat2", 443), ("timeoff", 444), ("timesheet", 445), ("timesheetreport", 446),
    ("timezone", 293), ("timingresolution", 295), ("title", 447), ("tooltip", 448),
    ("tracereport", 449), ("trackingscenario", 450), ("treelevel", 451), ("vacation", 288),
    ("warn", 452), ("weeklymax", 453), ("weeklymin", 454), ("weekstartsmonday", 455),
    ("weekstartssunday", 456), ("width", 457), ("work", 458), ("workinghours", 294),
    ("yearlyworkingdays", 459)]

/-! ### Variables -/

/-- The start conditions. -/
inductive StartCondition where
  | initial
  | blockComment
  | scissors
  | dquote
  | squote
  deriving DecidableEq

/-- The variables of the actions, and what they have pushed.  `strBuf` is the part of
`str_buf` below `str_len`; `echoed` is what the default rule has written to stdout. -/
structure LexGlobals where
  yylineno : ℕ
  yycolumn : ℕ
  tokStart : LspPos
  mfragStart : LspPos
  strBuf : CStr
  pendingNewline : Bool
  yylval : Token
  tokSpans : List TokenSpan
  numSemEntries : ℕ
  echoed : CStr

/-- `sizeof(str_buf)`. -/
def strBufSize : ℕ := 4096

/-- `is_sem_highlighted`. -/
def isSemHighlighted (kind : ℕ) : Bool :=
  kind != tkLbrace && kind != tkRbrace && kind != tkBang && kind != tkDot && kind != tkComma

namespace LexGlobals

variable (g : LexGlobals)

/-- The position before the next character. -/
def pos : LspPos := ⟨UInt32.ofNat (g.yylineno - 1), UInt32.ofNat g.yycolumn⟩

/-- The match of a rule is counted (`yylineno`), and then `YY_USER_ACTION` runs. -/
def userAction (text : CStr) : LexGlobals :=
  let g := { g with yylineno := g.yylineno + text.countP (· == 10) }
  { g with tokStart := g.pos, yycolumn := g.yycolumn + text.length }

/-- `g_push_tok_span`. -/
def pushTokSpan (kind : ℕ) (start stop : LspPos) (text : Option CStr) : LexGlobals :=
  { g with
    tokSpans := g.tokSpans ++ [⟨kind, start, stop, text⟩]
    numSemEntries := if isSemHighlighted kind then
      g.numSemEntries + (stop.line - start.line + 1).toNat else g.numSemEntries }

/-- `STR_APPEND`: what does not fit is left out. -/
def strAppend (s : CStr) : LexGlobals :=
  if g.strBuf.length + s.length < strBufSize - 1 then { g with strBuf := g.strBuf ++ s } else g

/-- `store_semantic_token`. -/
def storeSemanticToken (token : ℕ) (yytext : CStr) : LexGlobals :=
  g.pushTokSpan token g.tokStart g.pos (some yytext)

/-- `emit_kw`. -/
def emitKw (code : ℕ) (yytext : CStr) : LexGlobals × ℕ :=
  let stop := g.pos
  ({ g.pushTokSpan code g.tokStart stop (some yytext) with
    yylval := ⟨code, g.tokStart, stop, some yytext⟩ }, code)

/-- `emit_plain`. -/
def emitPlain (code : ℕ) (yytext : CStr) : LexGlobals × ℕ :=
  let stop := g.pos
  let pushed :=
    if code = tkIdent ∨ code = tkLbracket ∨ code = tkRbracket then
      g.pushTokSpan code g.tokStart stop (some yytext)
    else if code = tkLbrace ∨ code = tkRbrace ∨ code = tkBang ∨ code = tkDot ∨ code = tkComma then
      g.pushTokSpan code g.tokStart stop none
    else g
  ({ pushed with
    yylval := ⟨code, g.tokStart, stop, if code = tkIdent then some yytext else none⟩ }, code)

/-- `emit_kw_mfrag_text`. -/
def emitKwMfragText (code : ℕ) (text : CStr) : LexGlobals × ℕ :=
  let stop := g.pos
  ({ g.pushTokSpan code g.mfragStart stop (some text) with
    yylval := ⟨code, g.mfragStart, stop, some text⟩ }, code)

end LexGlobals

/-! ### Actions -/

/-- The actions of the rules. -/
inductive LexAction where
  | skip
  | newline
  | lineComment
  | openFragment (next : StartCondition)
  | append
  | appendNewline
  | closeComment
  | closeString (code : ℕ)
  | badNewline
  | emitKw (code : ℕ)
  | emitPlain (code : ℕ)

/-- What an action does after `YY_USER_ACTION`: the start condition to go on in, and the
token if it returns one. -/
def LexAction.run (c : StartCondition) (g : LexGlobals) (yytext : CStr) :
    LexAction → (StartCondition × LexGlobals) × Option ℕ
  | skip => ((c, g), none)
  | newline => ((c, { g with yycolumn := 0, pendingNewline := true }), none)
  | lineComment => ((c, g.storeSemanticToken tkLineComment yytext), none)
  | openFragment next =>
    -- STR_RESET, then STR_APPEND of the delimiter, which is what has matched
    ((next, { g with mfragStart := g.tokStart, strBuf := [] }.strAppend yytext), none)
  | append => ((c, g.strAppend yytext), none)
  | appendNewline => ((c, { g.strAppend yytext with yycolumn := 0 }), none)
  | closeComment =>
    let g := g.strAppend yytext
    ((.initial, g.pushTokSpan tkBlockComment g.mfragStart g.pos (some g.strBuf)), none)
  | closeString code =>
    let g := g.strAppend yytext
    let out := g.emitKwMfragText code g.strBuf
    ((.initial, out.1), some out.2)
  | badNewline =>
    let out := { g with yycolumn := 0 }.emitPlain tkError yytext
    ((.initial, out.1), some out.2)
  | emitKw code =>
    let out := g.emitKw code yytext
    ((c, out.1), some out.2)
  | emitPlain code =>
    let out := g.emitPlain code yytext
    ((c, out.1), some out.2)

/-! ### Rules -/

/-- The bytes from `lo` to `hi`. -/
def byteIn (lo hi : UInt8) (b : UInt8) : Bool := lo ≤ b && b ≤ hi

/-- `[0-9]`. -/
def digitClass (b : UInt8) : Bool := byteIn 48 57 b

/-- `[ \t\r\f\v]`. -/
def blankClass (b : UInt8) : Bool := b == 32 || b == 9 || b == 13 || b == 12 || b == 11

/-- `[^\n]`, and `.` as well. -/
def lineClass (b : UInt8) : Bool := b != 10

/-- `[^x\n]`. -/
def lineClassBut (x : UInt8) (b : UInt8) : Bool := b != 10 && b != x

/-- `[^q\\\n]`. -/
def quotedClass (q : UInt8) (b : UInt8) : Bool := b != 10 && b != 92 && b != q

/-- `[a-zA-Z_\x80-\xFF]`. -/
def identStartClass (b : UInt8) : Bool :=
  byteIn 97 122 b || byteIn 65 90 b || b == 95 || byteIn 128 255 b

/-- `[a-zA-Z0-9_:\x80-\xFF]`. -/
def identClass (b : UInt8) : Bool := identStartClass b || digitClass b || b == 58

open Pattern in
/-- `[0-9]{4}-[0-9]{2}-[0-9]{2}(-[0-9]{2}:[0-9]{2}(:[0-9]{2})?)?(-[+-][0-9]{4})?` -/
def datePattern : Pattern UInt8 :=
  let digits := fun n => rep n digitClass
  let dash := lit [45]
  let colon := lit [58]
  let seconds := opt (seqs [colon, digits 2])
  let time := opt (seqs [dash, digits 2, colon, digits 2, seconds])
  let zone := opt (seqs [dash, one fun b => b == 43 || b == 45, digits 4])
  seqs [digits 4, dash, digits 2, dash, digits 2, time, zone]

open Pattern in
/-- `[+-]?[0-9]+(min|h|d|w|m|y)` -/
def durationPattern : Pattern UInt8 :=
  seqs [opt (one fun b => b == 43 || b == 45), many1 digitClass,
    alts [lit (cstr "min"), lit (cstr "h"), lit (cstr "d"), lit (cstr "w"), lit (cstr "m"),
      lit (cstr "y")]]

open Pattern in
/-- The rules of `INITIAL`. -/
def initialRules : List (Rule UInt8 LexAction) :=
  [⟨many1 blankClass, .skip⟩,
    ⟨lit [10], .newline⟩,
    ⟨seq (lit (cstr "#")) (many lineClass), .lineComment⟩,
    ⟨seq (lit (cstr "//")) (many lineClass), .lineComment⟩,
    ⟨lit (cstr "/*"), .openFragment .blockComment⟩,
    ⟨lit (cstr "-8<-"), .openFragment .scissors⟩,
    ⟨lit (cstr "\""), .openFragment .dquote⟩,
    ⟨lit (cstr "'"), .openFragment .squote⟩,
    ⟨datePattern, .emitKw tkDate⟩,
    ⟨durationPattern, .emitKw tkDuration⟩,
    ⟨seqs [many1 digitClass, lit (cstr "."), many1 digitClass], .emitPlain tkFloat⟩,
    ⟨many1 digitClass, .emitPlain tkInteger⟩] ++
  keywords.map (fun kw => ⟨lit (cstr kw.1), .emitKw kw.2⟩) ++
  [⟨seq (one identStartClass) (many identClass), .emitPlain tkIdent⟩,
    ⟨lit (cstr "\x7b"), .emitPlain tkLbrace⟩,
    ⟨lit (cstr "\x7d"), .emitPlain tkRbrace⟩,
    ⟨lit (cstr "["), .emitPlain tkLbracket⟩,
    ⟨lit (cstr "]"), .emitPlain tkRbracket⟩,
    ⟨lit (cstr "!"), .emitPlain tkBang⟩,
    ⟨lit (cstr "+"), .emitPlain tkPlus⟩,
    ⟨lit (cstr "-"), .emitPlain tkMinus⟩,
    ⟨lit (cstr "."), .emitPlain tkDot⟩,
    ⟨lit (cstr ":"), .emitPlain tkColon⟩,
    ⟨lit (cstr ","), .emitPlain tkComma⟩,
    ⟨lit (cstr "%"), .emitPlain tkPercent⟩,
    ⟨lit (cstr "$"), .emitPlain tkDollar⟩,
    ⟨one lineClass, .emitPlain tkError⟩]

open Pattern in
/-- The rules of `BLOCK_COMMENT` and `SCISSORS`: `x` is the byte that may begin the end. -/
def fragmentRules (stop : CStr) (x : UInt8) (close : LexAction) : List (Rule UInt8 LexAction) :=
  [⟨lit stop, close⟩,
    ⟨lit [10], .appendNewline⟩,
    ⟨many1 (lineClassBut x), .append⟩,
    ⟨lit [x], .append⟩]

open Pattern in
/-- The rules of `DQUOTE` and `SQUOTE`. -/
def quoteRules (q : UInt8) : List (Rule UInt8 LexAction) :=
  [⟨lit [q], .closeString tkStr⟩,
    ⟨lit [10], .badNewline⟩,
    ⟨seq (lit [92]) (one lineClass), .append⟩,
    ⟨many1 (quotedClass q), .append⟩]

/-- The rules of a start condition. -/
def lexRules : StartCondition → List (Rule UInt8 LexAction)
  | .initial => initialRules
  | .blockComment => fragmentRules (cstr "*/") 42 .closeComment
  | .scissors => fragmentRules (cstr "->8-") 45 (.closeString tkMultiLineStr)
  | .dquote => quoteRules 34
  | .squote => quoteRules 39

/-- The scanner of `lexer.l`.  At the end of the input, `INITIAL` returns 0 and every other
start condition `TK_ERROR`, without `YY_USER_ACTION`. -/
def lexer : Scanner UInt8 StartCondition LexAction LexGlobals ℕ where
  rules := lexRules
  act c g a yytext := a.run c (g.userAction yytext) yytext
  echo g yytext := { g.userAction yytext with echoed := g.echoed ++ yytext }
  eof
    | .initial, g => ((.initial, g), 0)
    | _, g =>
      let out := g.emitPlain tkError []
      ((.initial, out.1), out.2)

/-- The state of the lexer. -/
abbrev LexState := Scan UInt8 StartCondition LexGlobals

/-- `raw_yylex`. -/
def rawYylex (s : LexState) : LexState × ℕ :=
  let out := lexer.next s
  (out.1, out.2.getD 0)

/-! ### The wrapper -/

/-- `tok_can_end_stmt`. -/
def tokCanEndStmt (k : ℕ) : Bool :=
  ! [tkComma, tkDot, tkColon, tkPlus, tkMinus, tkBang, tkLbrace, tkLbracket, tkDollar, tkEol,
    0].contains k

/-- `tok_can_begin_stmt`. -/
def tokCanBeginStmt (k : ℕ) : Bool :=
  ! [tkComma, tkDot, tkColon, tkPlus, tkMinus, tkBang, tkLbrace, tkRbrace, tkLbracket, tkRbracket,
    tkPercent, tkInteger, tkFloat, tkDate, tkDuration, tkStr, tkMultiLineStr, tkError, tkEol,
    0].contains k

/-- `EOL_BRACE_MAX`. -/
def eolBraceMax : ℕ := 256

/-- The variables of the wrapper. -/
structure EolState where
  prevCanEnd : Bool
  prevKind : ℕ
  haveBuffered : Bool
  bufferedKind : ℕ
  bufferedVal : Token
  braceIsMacro : ℕ → Bool
  braceDepth : ℕ

/-- The state of the front end: the scanner and the wrapper. -/
structure FrontState where
  lex : LexState
  eol : EolState

/-- The next real token: the one held back, or one from the scanner, with whether a line
break stands before it.  At the end of the input, an open body is closed first. -/
def nextToken (s : FrontState) : FrontState × ℕ × Bool :=
  if s.eol.haveBuffered then
    let vars := { s.lex.vars with yylval := s.eol.bufferedVal }
    (⟨{ s.lex with vars := vars }, { s.eol with haveBuffered := false }⟩, s.eol.bufferedKind, false)
  else
    let (lex, kind) := rawYylex { s.lex with vars := { s.lex.vars with pendingNewline := false } }
    if kind = 0 ∧ 0 < s.eol.braceDepth then
      let here := lex.vars.pos
      let vars := { lex.vars with yylval := ⟨tkRbrace, here, here, some (cstr "\x7d")⟩ }
      (⟨{ lex with vars := vars }, s.eol⟩, tkRbrace, lex.vars.pendingNewline)
    else (⟨lex, s.eol⟩, kind, lex.vars.pendingNewline)

/-- `yylex`. -/
def yylex (s : FrontState) : FrontState × ℕ :=
  let (s, kind, newlineBefore) := nextToken s
  let eol := s.eol
  let macroClose := kind = tkRbrace ∧ 0 < eol.braceDepth ∧ eol.braceDepth ≤ eolBraceMax ∧
    eol.braceIsMacro (eol.braceDepth - 1) = true
  let bodyClose := kind = tkRbrace ∧ ¬ macroClose
  if eol.prevCanEnd = true ∧
      ((newlineBefore = true ∧ tokCanBeginStmt kind = true) ∨ bodyClose ∨ kind = 0) then
    let eol := { eol with
      bufferedKind := kind
      bufferedVal := s.lex.vars.yylval
      haveBuffered := true
      prevCanEnd := false }
    let vars := { s.lex.vars with yylval := { Token.zero with kind := tkEol } }
    (⟨{ s.lex with vars := vars }, eol⟩, tkEol)
  else
    let eol :=
      if kind = tkLbrace then
        { eol with
          braceIsMacro := if eol.braceDepth < eolBraceMax then
            Function.update eol.braceIsMacro eol.braceDepth (eol.prevKind == tkDollar)
            else eol.braceIsMacro
          braceDepth := eol.braceDepth + 1 }
      else if kind = tkRbrace ∧ 0 < eol.braceDepth then
        { eol with braceDepth := eol.braceDepth - 1 }
      else eol
    (⟨s.lex, { eol with prevKind := kind, prevCanEnd := tokCanEndStmt kind }⟩, kind)

/-! ### A parse -/

/-- What `yy_scan_string` scans: it passes the length as an `int`, and gives up where
the buffer for it does not fit. -/
def yyScanString (src : CStr) : Option CStr :=
  let n := (src.length : ℤ).bmod (2 ^ 32)
  if 0 ≤ n ∧ n + 2 < 2 ^ 31 then some (src.take n.toNat) else none

/-- The variables as `install_parse_globals` leaves them, on those of an earlier parse. -/
def LexGlobals.install (g : LexGlobals) : LexGlobals :=
  { g with
    yylineno := 1
    yycolumn := 0
    pendingNewline := false
    tokSpans := []
    numSemEntries := 0 }

/-- `reset_eol_state`, apart from the flag of the newline rule. -/
def EolState.reset (e : EolState) : EolState :=
  { e with
    prevCanEnd := false
    prevKind := 0
    haveBuffered := false
    bufferedKind := 0
    bufferedVal := Token.zero
    braceDepth := 0 }

/-- The front end at the start of a parse, on what an earlier parse has left. -/
def FrontState.install (s : FrontState) (input : CStr) : FrontState :=
  ⟨⟨s.lex.cond, s.lex.vars.install, input⟩, s.eol.reset⟩

/-- The front end as the program starts. -/
def FrontState.boot : FrontState where
  lex := ⟨.initial, ⟨1, 0, ⟨0, 0⟩, ⟨0, 0⟩, [], false, Token.zero, [], 0, []⟩, []⟩
  eol := ⟨false, 0, false, 0, Token.zero, fun _ => false, 0⟩

/-- So many calls of `yylex`. -/
def yylexCalls : ℕ → FrontState → FrontState
  | 0, s => s
  | n + 1, s => yylexCalls n (yylex s).1

end TaskjugglerLsp
