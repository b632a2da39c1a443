import TaskjugglerLsp.Lexer
import TaskjugglerLsp.Lib.Lr

/-!
# The grammar

The productions of `grammar.y`, with their actions by name.  A `mid…` nonterminal is one
that bison makes up for an action in the middle of a production.  Terminals are the codes
of `Parser.lean` and `Lexer.lean`; `kw` is the code of a keyword.
-/

namespace TaskjugglerLsp

open Lib.Lr

/-- The nonterminals. -/
inductive NonTerm where
  | accept | file | items | item | plainStmt | dateKw | durvalKw | numvalKw | intKw | durlimitKw
  | stringKw | identKw | idlistKw | noargKw | genexprKw | identStringBodyKw | formatKw | stubKw
  | symbolDecl | symKw | reportDecl | reportKw | navigatorDecl | scenarioDecl | timesheetDecl
  | statussheetDecl | tagfileDecl | journalentryDecl | extendStmt | extendTarget | supplementStmt
  | supplementTarget | macroStmt | includeStmt | numVal | durUnit | durVal | stringVal | optId
  | optName | optVersion | interval2 | interval3 | dottedId | prefixPathId | dottedIdList | idList
  | bangSeq | depPathSeg | depPath | taskRef | depRef | depRefList | allocRef | allocRefList
  | shiftAttrRef | shiftAttrList | bookingIntervalList | chargesetList | creditsList | columnId
  | columnEntry | columnList | formatsList | genExpr | genExprTok | macroBody | macroBodyTok
  | optArgs | argToken | optBody | bodyItems | midFile | midSymbol | midDepends | midPrecedes
  | midInclude
  deriving DecidableEq

/-- The code of a keyword. -/
def kw (name : String) : ℕ := (keywords.lookup name).getD 0

/-- The `error` token of bison. -/
def yyError : ℕ := 256

/-- `YYMAXDEPTH`. -/
def yyMaxDepth : ℕ := 10000

/-! ### Actions -/

/-- What an action does. -/
inductive ActionCode where
  | default
  | resetSymStack
  | routeItem
  | itemSym
  | itemPlain
  | startDate
  | endDate
  | setPrefix (kind : PrefixKind)
  | pendingDepKind (kind : DepKind)
  | projectDecl
  | openSymbol
  | closeSymbol
  | declare (id name : Option ℕ) (body : ℕ)
  | openInclude
  | closeInclude
  | emptyToken
  | prefixSegment
  | prefixPath
  | noBangs
  | countBang
  | depSegment
  | depPath
  | taskRef
  | depRef
  | emptyBody
  | closeBody
  | bodyItem
  | keepBody
  deriving DecidableEq

/-- An action, and how many symbols of its production are before it. -/
structure SemAction where
  reach : ℕ
  code : ActionCode
  deriving DecidableEq

/-! ### Productions -/

/-- A production with an action at its end. -/
def rule (lhs : NonTerm) (rhs : List (Symbol NonTerm)) (code : ActionCode) :
    Production NonTerm SemAction := ⟨lhs, rhs, ⟨rhs.length, code⟩⟩

/-- The empty production of an action behind `n` symbols of another one. -/
def midRule (lhs : NonTerm) (n : ℕ) (code : ActionCode) : Production NonTerm SemAction :=
  ⟨lhs, [], ⟨n, code⟩⟩

/-- Productions without an action. -/
def plain (lhs : NonTerm) (alts : List (List (Symbol NonTerm))) :
    List (Production NonTerm SemAction) := alts.map fun rhs => rule lhs rhs .default

/-- A class of tokens. -/
def tokens (lhs : NonTerm) (kinds : List ℕ) : List (Production NonTerm SemAction) :=
  kinds.map fun k => rule lhs [.tok k] .default

/-- The file and its items. -/
def fileProductions : List (Production NonTerm SemAction) :=
  [rule .file [.nt .midFile, .nt .items] .default,
    midRule .midFile 0 .resetSymStack,
    rule .items [] .default,
    rule .items [.nt .items, .nt .item] .routeItem,
    rule .items [.nt .items, .tok tkEol] .default] ++
  [.symbolDecl, .reportDecl, .navigatorDecl, .scenarioDecl, .timesheetDecl, .statussheetDecl,
    .tagfileDecl, .journalentryDecl].map (fun n => rule .item [.nt n] .itemSym) ++
  [rule .item [.nt .plainStmt] .itemPlain,
    rule .item [.tok yyError] .itemPlain]

/-- The statements that yield no declaration. -/
def plainStmtProductions : List (Production NonTerm SemAction) :=
  [rule .plainStmt [.tok (kw "start"), .tok tkDate] .startDate,
    rule .plainStmt [.tok (kw "end"), .tok tkDate] .endDate,
    rule .plainStmt [.tok (kw "taskprefix"), .nt .prefixPathId] (.setPrefix .task),
    rule .plainStmt [.tok (kw "resourceprefix"), .nt .prefixPathId] (.setPrefix .resource),
    rule .plainStmt [.tok (kw "accountprefix"), .nt .prefixPathId] (.setPrefix .account),
    rule .plainStmt [.tok (kw "reportprefix"), .nt .prefixPathId] (.setPrefix .report),
    rule .plainStmt [.tok (kw "depends"), .nt .midDepends, .nt .depRefList] .default,
    midRule .midDepends 1 (.pendingDepKind .depends),
    rule .plainStmt [.tok (kw "precedes"), .nt .midPrecedes, .nt .depRefList] .default,
    midRule .midPrecedes 1 (.pendingDepKind .precedes)] ++
  plain .plainStmt [[.nt .extendStmt], [.nt .supplementStmt], [.nt .macroStmt],
    [.nt .includeStmt], [.nt .dateKw, .tok tkDate], [.nt .durvalKw, .nt .durVal],
    [.tok (kw "work"), .nt .numVal, .nt .durUnit], [.nt .numvalKw, .nt .numVal],
    [.nt .intKw, .tok tkInteger], [.tok (kw "timingresolution"), .tok tkInteger, .tok tkIdent],
    [.nt .durlimitKw, .nt .durVal, .nt .optBody], [.nt .stringKw, .nt .stringVal],
    [.tok (kw "timezone"), .nt .stringVal], [.tok (kw "timezone"), .tok tkIdent],
    [.nt .identKw, .tok tkIdent], [.tok (kw "taskroot"), .nt .dottedId],
    [.tok (kw "balance"), .tok tkIdent, .tok tkIdent], [.tok (kw "balance"), .tok tkMinus],
    [.nt .idlistKw, .nt .idList], [.tok (kw "adopt"), .nt .dottedIdList], [.nt .noargKw],
    [.tok (kw "period"), .nt .interval2], [.tok (kw "allocate"), .nt .allocRefList],
    [.tok (kw "booking"), .tok tkIdent, .nt .bookingIntervalList, .nt .optBody],
    [.tok (kw "shift"), .nt .shiftAttrList], [.tok (kw "shifts"), .nt .shiftAttrList],
    [.tok (kw "limits"), .nt .optBody], [.tok (kw "projection"), .nt .optBody],
    [.tok (kw "chargeset"), .nt .chargesetList],
    [.tok (kw "charge"), .nt .numVal, .tok tkIdent], [.tok (kw "credits"), .nt .creditsList],
    [.nt .genexprKw, .nt .genExpr, .tok tkEol], [.tok (kw "columns"), .nt .columnList],
    [.tok (kw "formats"), .nt .formatsList],
    [.nt .identStringBodyKw, .tok tkIdent, .nt .stringVal, .nt .optBody],
    [.nt .formatKw, .nt .stringVal, .nt .stringVal, .nt .stringVal, .nt .stringVal, .nt .numVal],
    [.nt .stubKw, .nt .optArgs, .tok tkEol],
    [.tok tkDollar, .tok tkLbrace, .nt .optArgs, .tok tkRbrace],
    [.tok tkIdent, .nt .optArgs, .nt .optBody]]

/-- The classes of keywords. -/
def keywordProductions : List (Production NonTerm SemAction) :=
  tokens .dateKw (["now", "maxend", "minend", "maxstart", "minstart", "markdate"].map kw) ++
  tokens .durvalKw (["effort", "duration", "length", "effortdone", "effortleft", "remaining",
    "gaplength", "gapduration"].map kw) ++
  tokens .numvalKw (["complete", "overtime", "sloppy", "dailyworkinghours", "yearlyworkingdays",
    "efficiency", "rate", "startcredit", "endcredit"].map kw) ++
  tokens .intKw (["priority", "height", "width"].map kw) ++
  tokens .durlimitKw (["dailymax", "dailymin", "weeklymax", "weeklymin", "monthlymax",
    "monthlymin", "maximum", "minimum"].map kw) ++
  tokens .stringKw (["note", "email", "headline", "title", "caption", "epilog", "prolog", "left",
    "right", "center", "footer", "header", "rawhtmlhead", "listitem", "currency", "timeformat",
    "shorttimeformat", "timeformat1", "timeformat2", "outputdir", "auxdir", "copyright", "details",
    "summary"].map kw) ++
  tokens .identKw (["projectid", "trackingscenario", "alert", "author", "resourceroot",
    "accountroot", "purge", "scheduling", "schedulingmode", "aggregate", "selfcontained", "active",
    "journalmode", "loadunit", "select", "scale", "listtype"].map kw) ++
  tokens .idlistKw (["responsible", "managers", "scenarios", "flags", "alternative", "projectids",
    "resources"].map kw) ++
  tokens .noargKw (["milestone", "scheduled", "mandatory", "persistent", "weekstartsmonday",
    "weekstartssunday", "disabled", "enabled", "replace", "novevents", "onstart", "onend",
    "strict", "timeoff"].map kw) ++
  tokens .genexprKw (["hidetask", "hideresource", "hideaccount", "hidereport", "hidejournalentry",
    "rolluptask", "rollupresource", "rollupaccount", "warn", "fail", "cellcolor", "celltext",
    "tooltip", "fontcolor", "halign", "sorttasks", "sortresources", "sortaccounts",
    "sortjournalentries", "journalattributes", "taskattributes", "resourceattributes",
    "definitions", "opennodes", "leaveallowances", "leaves", "vacation", "workinghours",
    "alertlevels"].map kw) ++
  tokens .identStringBodyKw (["status", "newtask", "date", "number", "reference", "richtext",
    "text"].map kw) ++
  tokens .formatKw (["numberformat", "currencyformat"].map kw) ++
  tokens .stubKw (["isactive", "ischildof", "isdependencyof", "isdutyof", "isfeatureof", "isleaf",
    "ismilestone", "isongoing", "isresource", "isresponsibilityof", "istask", "isvalid",
    "hasalert", "treelevel", "inherit", "scenariospecific"].map kw) ++
  tokens .symKw (["task", "resource", "account"].map kw) ++
  tokens .reportKw (["taskreport", "resourcereport", "accountreport", "textreport", "tracereport",
    "export", "statussheetreport", "timesheetreport"].map kw) ++
  tokens .extendTarget (["task", "resource"].map kw) ++
  tokens .supplementTarget ([tkIdent] ++ ["account", "task", "resource"].map kw)

/-- The classes of other tokens. -/
def tokenProductions : List (Production NonTerm SemAction) :=
  tokens .numVal [tkInteger, tkFloat] ++
  tokens .durUnit [tkIdent, tkPercent] ++
  tokens .stringVal [tkStr, tkMultiLineStr] ++
  tokens .depPathSeg ([tkIdent] ++ ["start"].map kw) ++
  tokens .columnId ([tkIdent] ++ ["alert", "complete", "date", "duration", "effort", "email",
    "end", "flags", "leaves", "length", "note", "priority", "rate", "remaining", "start", "status",
    "work"].map kw) ++
  tokens .genExprTok ([tkIdent, tkInteger, tkFloat, tkStr, tkDate, tkDuration, tkBang, tkPlus,
    tkMinus, tkDot, tkColon, tkComma, tkPercent, tkDollar, tkLbracket, tkRbracket,
    tkMultiLineStr, tkError] ++ ["accountprefix", "accountroot", "active", "adopt", "aggregate",
    "alert", "alertlevels", "allocate", "alternative", "author", "auxdir", "balance", "booking",
    "caption", "cellcolor", "celltext", "center", "charge", "chargeset", "columns", "complete",
    "copyright", "credits", "currency", "currencyformat", "dailymax", "dailymin",
    "dailyworkinghours", "date", "definitions", "depends", "details", "disabled", "duration",
    "efficiency", "effort", "effortdone", "effortleft", "email", "enabled", "end", "endcredit",
    "epilog", "fail", "flags", "fontcolor", "footer", "formats", "gapduration", "gaplength",
    "halign", "hasalert", "header", "headline", "height", "hideaccount", "hidejournalentry",
    "hidereport", "hideresource", "hidetask", "inherit", "isactive", "ischildof", "isdependencyof",
    "isdutyof", "isfeatureof", "isleaf", "ismilestone", "isongoing", "isresource",
    "isresponsibilityof", "istask", "isvalid", "journalattributes", "journalmode",
    "leaveallowances", "leaves", "left", "length", "limits", "listitem", "listtype", "loadunit",
    "managers", "mandatory", "markdate", "maxend", "maximum", "maxstart", "milestone", "minend",
    "minimum", "minstart", "monthlymax", "monthlymin", "newtask", "note", "novevents", "now",
    "number", "numberformat", "onend", "onstart", "opennodes", "outputdir", "overtime", "period",
    "persistent", "precedes", "priority", "projectid", "projectids", "projection", "prolog",
    "purge", "rate", "rawhtmlhead", "reference", "remaining", "replace", "reportprefix",
    "resourceattributes", "resourceprefix", "resourceroot", "resources", "responsible", "richtext",
    "right", "rollupaccount", "rollupresource", "rolluptask", "scale", "scenarios",
    "scenariospecific", "scheduled", "scheduling", "schedulingmode", "select", "selfcontained",
    "shifts", "shorttimeformat", "sloppy", "sortaccounts", "sortjournalentries", "sortresources",
    "sorttasks", "start", "startcredit", "status", "strict", "summary", "tagfile",
    "taskattributes", "taskprefix", "taskroot", "text", "timeformat", "timeformat1", "timeformat2",
    "timeoff", "timezone", "timingresolution", "title", "tooltip", "trackingscenario", "treelevel",
    "vacation", "warn", "weeklymax", "weeklymin", "weekstartsmonday", "weekstartssunday", "width",
    "work", "workinghours", "yearlyworkingdays"].map kw) ++
  tokens .macroBodyTok ([tkIdent, tkInteger, tkFloat, tkStr, tkDate, tkDuration, tkLbrace,
    tkRbrace, tkLbracket, tkBang, tkPlus, tkMinus, tkDot, tkColon, tkComma, tkPercent,
    tkDollar, tkMultiLineStr, tkError, tkEol] ++ ["project", "task", "resource", "account",
    "shift", "taskreport", "resourcereport", "accountreport", "textreport", "tracereport",
    "icalreport", "nikureport", "export", "statussheetreport", "timesheetreport", "navigator",
    "tagfile", "macro", "include", "supplement", "scenario", "extend", "timesheet", "statussheet",
    "journalentry", "allocate", "depends", "effort", "start", "end", "complete", "note", "tooltip",
    "cellcolor", "hidetask", "hideresource", "formats", "columns", "loadunit", "headline",
    "sorttasks", "sortresources", "title"].map kw) ++
  tokens .argToken [tkIdent, tkStr, tkInteger, tkFloat, tkDate, tkDuration, tkBang, tkPlus,
    tkMinus, tkDot, tkColon, tkComma, tkPercent, tkDollar, tkLbracket, tkRbracket,
    tkMultiLineStr, tkError]

/-- The declarations. -/
def declProductions : List (Production NonTerm SemAction) :=
  [rule .symbolDecl [.tok (kw "project"), .nt .optId, .nt .stringVal, .nt .optVersion,
      .nt .interval2, .nt .optBody] .projectDecl,
    rule .symbolDecl [.nt .symKw, .nt .optId, .nt .stringVal, .nt .midSymbol, .nt .optBody]
      .closeSymbol,
    midRule .midSymbol 3 .openSymbol,
    rule .symbolDecl [.tok (kw "shift"), .nt .optId, .nt .stringVal, .nt .optBody]
      (.declare (some 2) (some 3) 4),
    rule .reportDecl [.nt .reportKw, .nt .optId, .nt .stringVal, .nt .optBody]
      (.declare (some 2) (some 3) 4),
    rule .reportDecl [.tok (kw "icalreport"), .nt .stringVal, .nt .optName, .nt .optBody]
      (.declare none (some 2) 4),
    rule .reportDecl [.tok (kw "nikureport"), .nt .stringVal, .nt .optName, .nt .optBody]
      (.declare none (some 2) 4),
    rule .navigatorDecl [.tok (kw "navigator"), .tok tkIdent, .nt .optBody]
      (.declare (some 2) none 3),
    rule .scenarioDecl [.tok (kw "scenario"), .tok tkIdent, .nt .optName, .nt .optBody]
      (.declare (some 2) (some 3) 4),
    rule .timesheetDecl [.tok (kw "timesheet"), .tok tkIdent, .nt .interval3, .nt .optBody]
      (.declare (some 2) none 4),
    rule .statussheetDecl [.tok (kw "statussheet"), .tok tkIdent, .nt .interval3, .nt .optBody]
      (.declare (some 2) none 4),
    rule .tagfileDecl [.tok (kw "tagfile"), .nt .optId, .nt .stringVal, .nt .optBody]
      (.declare (some 2) (some 3) 4),
    rule .journalentryDecl [.tok (kw "journalentry"), .tok tkDate, .nt .stringVal, .nt .optBody]
      (.declare none (some 3) 4)]

/-- `extend`, `supplement`, `macro` and `include`. -/
def stmtProductions : List (Production NonTerm SemAction) :=
  plain .extendStmt [[.tok (kw "extend"), .nt .extendTarget, .nt .optBody]] ++
  plain .supplementStmt [
    [.tok (kw "supplement"), .nt .supplementTarget, .nt .dottedId, .nt .optBody]] ++
  plain .macroStmt [
    [.tok (kw "macro"), .tok tkIdent, .tok tkLbracket, .nt .macroBody, .tok tkRbracket]] ++
  [rule .includeStmt [.tok (kw "include"), .nt .stringVal, .nt .midInclude, .nt .optBody]
      .closeInclude,
    midRule .midInclude 2 .openInclude]

/-- Arguments and lists of them. -/
def listProductions : List (Production NonTerm SemAction) :=
  plain .durVal [[.nt .numVal, .nt .durUnit], [.tok tkDuration]] ++
  plain .interval2 [[.tok tkDate, .tok tkMinus, .tok tkDate], [.tok tkDate, .tok tkDuration],
    [.tok tkDate, .tok tkPlus, .nt .numVal, .nt .durUnit]] ++
  plain .interval3 [[.tok tkDate], [.tok tkDate, .tok tkMinus, .tok tkDate],
    [.tok tkDate, .tok tkDuration], [.tok tkDate, .tok tkPlus, .nt .numVal, .nt .durUnit]] ++
  plain .dottedId [[.tok tkIdent], [.nt .dottedId, .tok tkDot, .tok tkIdent]] ++
  plain .dottedIdList [[.nt .dottedId], [.nt .dottedIdList, .tok tkComma, .nt .dottedId]] ++
  plain .idList [[.tok tkIdent], [.nt .idList, .tok tkComma, .tok tkIdent]] ++
  plain .depRefList [[.nt .depRef], [.nt .depRefList, .tok tkComma, .nt .depRef]] ++
  plain .allocRef [[.tok tkIdent, .nt .optBody]] ++
  plain .allocRefList [[.nt .allocRef], [.nt .allocRefList, .tok tkComma, .nt .allocRef]] ++
  plain .shiftAttrRef [[.tok tkIdent], [.tok tkIdent, .nt .interval2]] ++
  plain .shiftAttrList [[.nt .shiftAttrRef],
    [.nt .shiftAttrList, .tok tkComma, .nt .shiftAttrRef]] ++
  plain .bookingIntervalList [[.nt .interval3],
    [.nt .bookingIntervalList, .tok tkComma, .nt .interval3]] ++
  plain .chargesetList [[.tok tkIdent, .nt .numVal, .tok tkPercent],
    [.nt .chargesetList, .tok tkComma, .tok tkIdent, .nt .numVal, .tok tkPercent]] ++
  plain .creditsList [[.tok tkDate, .nt .stringVal, .nt .numVal],
    [.nt .creditsList, .tok tkComma, .tok tkDate, .nt .stringVal, .nt .numVal]] ++
  plain .columnEntry [[.nt .columnId, .nt .optBody]] ++
  plain .columnList [[.nt .columnEntry], [.nt .columnList, .tok tkComma, .nt .columnEntry]] ++
  plain .formatsList [[.tok tkIdent], [.nt .formatsList, .tok tkComma, .tok tkIdent]] ++
  plain .genExpr [[.nt .genExprTok], [.nt .genExpr, .nt .genExprTok]] ++
  plain .macroBody [[], [.nt .macroBody, .nt .macroBodyTok]] ++
  plain .optArgs [[], [.nt .optArgs, .nt .argToken]]

/-- Arguments with a value. -/
def valueProductions : List (Production NonTerm SemAction) :=
  [rule .optId [] .emptyToken,
    rule .optId [.tok tkIdent] .default,
    rule .optId [.tok (kw "start")] .default,
    rule .optName [] .emptyToken,
    rule .optName [.tok tkStr] .default,
    rule .optName [.tok tkMultiLineStr] .default,
    rule .optVersion [] .emptyToken,
    rule .optVersion [.tok tkStr] .default,
    rule .prefixPathId [.tok tkIdent] .prefixSegment,
    rule .prefixPathId [.nt .prefixPathId, .tok tkDot, .tok tkIdent] .prefixPath,
    rule .bangSeq [] .noBangs,
    rule .bangSeq [.nt .bangSeq, .tok tkBang] .countBang,
    rule .depPath [.nt .depPathSeg] .depSegment,
    rule .depPath [.nt .depPath, .tok tkDot, .nt .depPathSeg] .depPath,
    rule .taskRef [.nt .bangSeq, .nt .depPath] .taskRef,
    rule .depRef [.nt .taskRef, .nt .optBody] .depRef]

/-- Bodies. -/
def bodyProductions : List (Production NonTerm SemAction) :=
  [rule .optBody [] .emptyBody,
    rule .optBody [.tok tkLbrace, .nt .bodyItems, .tok tkRbrace] .closeBody,
    rule .bodyItems [] .emptyBody,
    rule .bodyItems [.nt .bodyItems, .nt .item] .bodyItem,
    rule .bodyItems [.nt .bodyItems, .tok tkEol] .keepBody]

/-- The production that bison adds. -/
def acceptProduction : Production NonTerm SemAction := rule .accept [.nt .file, .tok 0] .default

/-- **The grammar** of `grammar.y`. -/
def grammar : Grammar NonTerm SemAction where
  accept := acceptProduction
  productions := fileProductions ++ plainStmtProductions ++ keywordProductions ++
    tokenProductions ++ declProductions ++ stmtProductions ++ listProductions ++
    valueProductions ++ bodyProductions
  fresh := by decide +kernel

end TaskjugglerLsp
