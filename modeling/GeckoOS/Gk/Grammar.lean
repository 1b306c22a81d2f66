import GeckoOS.Gk.ParserCases

/-! The grammar of the syntax guide, over the types of the tokens, and a watch
over the tokens that stops where a line holds two statements or an elif has no if. -/
namespace GeckoOS.Gk

def binaryOps : List TokenType := mulOps ++ addOps ++ cmpOps ++ [.and, .or]

inductive Nonterminal where
  | expr | args | params | simple | block | clauses | statement | statements | program

/-- A line holds one statement, a block is between INDENT and DEDENT behind a
colon and a NEWLINE, and elif and else come behind the block of an if or elif.
A NEWLINE more is a blank line. -/
inductive Derives : Nonterminal → List TokenType → Prop
  | atom {t : TokenType} : t ∈ atoms → Derives .expr [t]
  | parens {e : List TokenType} : Derives .expr e → Derives .expr (.lparen :: (e ++ [.rparen]))
  | call {as : List TokenType} : Derives .args as → Derives .expr (.ident :: .lparen :: (as ++ [.rparen]))
  | unary {op : TokenType} {e : List TokenType} : op = .minus ∨ op = .not → Derives .expr e →
      Derives .expr (op :: e)
  | binary {op : TokenType} {l r : List TokenType} : op ∈ binaryOps → Derives .expr l → Derives .expr r →
      Derives .expr (l ++ op :: r)
  | noArg : Derives .args []
  | lastArg {e : List TokenType} : Derives .expr e → Derives .args e
  | nextArg {e as : List TokenType} : Derives .expr e → Derives .args as → Derives .args (e ++ .comma :: as)
  | noParam : Derives .params []
  | lastParam : Derives .params [.ident]
  | nextParam {ps : List TokenType} : Derives .params ps → Derives .params (.ident :: .comma :: ps)
  | expression {e : List TokenType} : Derives .expr e → Derives .simple e
  | assignment {e : List TokenType} : Derives .expr e → Derives .simple (.ident :: .assign :: e)
  | ret : Derives .simple [.kwReturn]
  | retValue {e : List TokenType} : Derives .expr e → Derives .simple (.kwReturn :: e)
  | brk : Derives .simple [.kwBreak]
  | cont : Derives .simple [.kwContinue]
  | block {ss : List TokenType} : Derives .statements ss →
      Derives .block (.colon :: .newline :: .indent :: (ss ++ [.dedent]))
  | noClause : Derives .clauses []
  | blankClause {cs : List TokenType} : Derives .clauses cs → Derives .clauses (.newline :: cs)
  | elifDo {e b cs : List TokenType} : Derives .expr e → Derives .block b → Derives .clauses cs →
      Derives .clauses (.kwElif :: (e ++ (b ++ cs)))
  | elseDo {b : List TokenType} : Derives .block b → Derives .clauses (.kwElse :: b)
  | line {ss : List TokenType} : Derives .simple ss → Derives .statement (ss ++ [.newline])
  | ifDo {e b cs : List TokenType} : Derives .expr e → Derives .block b → Derives .clauses cs →
      Derives .statement (.kwIf :: (e ++ (b ++ cs)))
  | whileDo {e b : List TokenType} : Derives .expr e → Derives .block b →
      Derives .statement (.kwWhile :: (e ++ b))
  | forIn {e b : List TokenType} : Derives .expr e → Derives .block b →
      Derives .statement (.kwFor :: .ident :: .kwIn :: (e ++ b))
  | define {ps b : List TokenType} : Derives .params ps → Derives .block b →
      Derives .statement (.kwDef :: .ident :: .lparen :: (ps ++ .rparen :: b))
  | nothing : Derives .statements []
  | blank {ss : List TokenType} : Derives .statements ss → Derives .statements (.newline :: ss)
  | next {st ss : List TokenType} : Derives .statement st → Derives .statements ss →
      Derives .statements (st ++ ss)
  | program {ss : List TokenType} : Derives .statements ss → Derives .program (ss ++ [.eof])

/-- What the last token of an expression can be. -/
def exprEnds : List TokenType := [.int, .str, .kwTrue, .kwFalse, .ident, .rparen]

/-- What the last token of a simple statement can be, a `return` alone apart. -/
def lineEnds : List TokenType := exprEnds ++ [.kwBreak, .kwContinue]

/-- What the first token of a statement can be, and `elif`. -/
def begins : List TokenType :=
  [.int, .str, .kwTrue, .kwFalse, .ident, .lparen, .minus, .not, .kwReturn, .kwBreak, .kwContinue,
    .kwDef, .kwIf, .kwElif, .kwWhile, .kwFor]

/-- A statement ends at `a` and the next one begins at `b`: neither does a minus
go on with the expression in front of it, nor a bracket with a name. -/
def joined (a b : TokenType) : Bool :=
  a ∈ lineEnds && b ∈ begins && !(a ∈ exprEnds && b == .minus) && !(a == .ident && b == .lparen)

/-- The last token; for each open block if it is that of an if or elif; if the
last header is that of one; and if the last block closed here, with nothing but
NEWLINE since then, is that of one. -/
structure Watch where
  last : TokenType
  blocks : List Bool
  header : Bool
  closed : Bool

namespace Watch

def start : Watch := ⟨.newline, [], false, false⟩

/-- It stops at a second statement on a line, and at an elif that follows no if. -/
def step (w : Watch) (t : TokenType) : Option Watch :=
  if joined w.last t then none
  else
    match t with
    | .newline => some { w with last := t }
    | .indent => some ⟨t, w.header :: w.blocks, w.header, false⟩
    | .dedent => some ⟨t, w.blocks.tail, w.header, w.blocks.headD false⟩
    | .kwElif => if w.closed then some ⟨t, w.blocks, true, false⟩ else none
    | .kwIf => some ⟨t, w.blocks, true, false⟩
    | .kwElse | .kwWhile | .kwFor | .kwDef => some ⟨t, w.blocks, false, false⟩
    | _ => some ⟨t, w.blocks, w.header, false⟩

/-- From `w` over all of `ts`. -/
def Sees (w : Watch) (ts : List TokenType) (w' : Watch) : Prop := ts.foldlM step w = some w'

/-- The tokens of a program in which each line holds one statement and each elif follows an if or elif. -/
def watched (ts : List TokenType) : Bool := (ts.foldlM step start).isSome

variable {w w' : Watch} {t : TokenType} {ts us : List TokenType}

theorem watched_iff : watched ts = true ↔ ∃ w, start.Sees ts w := Option.isSome_iff_exists

theorem sees_nil : w.Sees [] w' ↔ w = w' := by
  unfold Sees
  rw [List.foldlM_nil]
  exact Option.some_inj

theorem sees_cons : w.Sees (t :: ts) w' ↔ ∃ w₁, w.step t = some w₁ ∧ w₁.Sees ts w' := by
  unfold Sees
  rw [List.foldlM_cons]
  exact Option.bind_eq_some_iff

theorem sees_append : w.Sees (ts ++ us) w' ↔ ∃ w₁, w.Sees ts w₁ ∧ w₁.Sees us w' := by
  unfold Sees
  rw [List.foldlM_append]
  exact Option.bind_eq_some_iff

/-- The tokens that neither open nor close blocks, nor begin a header. -/
def unwatched : TokenType → Bool
  | .newline | .indent | .dedent | .kwElif | .kwIf | .kwElse | .kwWhile | .kwFor | .kwDef => false
  | _ => true

theorem joined_of_notEnds {a : TokenType} (h : a ∉ lineEnds) (b : TokenType) : joined a b = false := by
  simp [joined, h]

theorem joined_of_notBegins {b : TokenType} (h : b ∉ begins) (a : TokenType) : joined a b = false := by
  simp [joined, h]

theorem joined_op : ∀ a ∈ exprEnds, ∀ b ∈ binaryOps, joined a b = false := by decide

theorem step_plain (hj : joined w.last t = false) (ht : unwatched t = true) :
    w.step t = some ⟨t, w.blocks, w.header, false⟩ := by
  unfold step
  rw [if_neg (by simp [hj])]
  cases t <;> first | rfl | cases ht

theorem step_newline (w : Watch) : w.step .newline = some { w with last := .newline } := by
  unfold step
  rw [if_neg (by simp [joined_of_notBegins (b := .newline) (by decide)])]

theorem step_indent (w : Watch) : w.step .indent = some ⟨.indent, w.header :: w.blocks, w.header, false⟩ := by
  unfold step
  rw [if_neg (by simp [joined_of_notBegins (b := .indent) (by decide)])]

theorem step_dedent (w : Watch) :
    w.step .dedent = some ⟨.dedent, w.blocks.tail, w.header, w.blocks.headD false⟩ := by
  unfold step
  rw [if_neg (by simp [joined_of_notBegins (b := .dedent) (by decide)])]

theorem step_if (h : w.last ∉ lineEnds) : w.step .kwIf = some ⟨.kwIf, w.blocks, true, false⟩ := by
  unfold step
  rw [if_neg (by simp [joined_of_notEnds h])]

theorem step_elif (h : w.last ∉ lineEnds) (hc : w.closed = true) :
    w.step .kwElif = some ⟨.kwElif, w.blocks, true, false⟩ := by
  unfold step
  rw [if_neg (by simp [joined_of_notEnds h])]
  exact if_pos hc

theorem joined_of_step (h : w.step t = some w') : joined w.last t = false := by
  unfold step at h
  split at h
  · cases h
  · next hj => exact Bool.eq_false_of_not_eq_true hj

theorem step_last (h : w.step t = some w') : w'.last = t := by
  unfold step at h
  split at h
  · cases h
  · split at h
    case h_4 =>
      split at h
      · obtain rfl := Option.some.inj h
        rfl
      · cases h
    all_goals
      obtain rfl := Option.some.inj h
      rfl

theorem step_blocks (h : w.step t = some w') :
    w'.blocks = if t = .indent then w.header ::
      w.blocks else if t = .dedent then w.blocks.tail else w.blocks := by
  unfold step at h
  split at h
  · cases h
  · split at h
    case h_4 =>
      split at h
      · obtain rfl := Option.some.inj h
        rfl
      · cases h
    case h_10 hnewline hindent hdedent _ _ _ _ _ _ =>
      obtain rfl := Option.some.inj h
      rw [if_neg hindent, if_neg hdedent]
    all_goals
      obtain rfl := Option.some.inj h
      rfl

theorem Sees.last_eq (h : w.Sees (ts ++ [t]) w') : w'.last = t := by
  obtain ⟨w₁, -, h₁⟩ := sees_append.mp h
  obtain ⟨w₂, h₂, h₃⟩ := sees_cons.mp h₁
  rw [← sees_nil.mp h₃]
  exact step_last h₂

theorem closed_of_step_elif (h : w.step .kwElif = some w') : w.closed = true := by
  unfold step at h
  split at h
  · cases h
  · by_contra hc
    rw [if_neg hc] at h
    cases h

/-- The headers of other blocks. -/
theorem step_header (h : w.last ∉ lineEnds) (ht : t ∈ [TokenType.kwElse, .kwWhile, .kwFor, .kwDef]) :
    w.step t = some ⟨t, w.blocks, false, false⟩ := by
  unfold step
  rw [if_neg (by simp [joined_of_notEnds h])]
  cases t <;> first | rfl | simp at ht

theorem sees_plain (hj : joined w.last t = false) (ht : unwatched t = true)
    (h : Sees ⟨t, w.blocks, w.header, false⟩ ts w') : w.Sees (t :: ts) w' :=
  sees_cons.mpr ⟨_, step_plain hj ht, h⟩

theorem Sees.snoc (h : w.Sees ts w') (hj : joined w'.last t = false) (ht : unwatched t = true) :
    w.Sees (ts ++ [t]) ⟨t, w'.blocks, w'.header, false⟩ :=
  sees_append.mpr ⟨w', h, sees_plain hj ht (sees_nil.mpr rfl)⟩

/-! Every derivation passes the watch. -/

/-- Where the tokens of a nonterminal may begin. -/
def Ready (w : Watch) : Nonterminal → Prop
  | .block => True
  | .clauses => w.last ∉ lineEnds ∧ w.closed = true
  | _ => w.last ∉ lineEnds

/-- What is known behind them. -/
def Behind (w w' : Watch) : Nonterminal → Prop
  | .expr => w'.last ∈ exprEnds ∧ w'.header = w.header ∧ w'.closed = false
  | .args | .params => w'.header = w.header
  | .simple => w'.closed = false
  | .block => w'.last = .dedent ∧ w'.closed = w.header
  | .program => True
  | _ => w'.last = w.last ∨ w'.last = .newline ∨ w'.last = .dedent

end Watch
open Watch

/-- The watch does not stop inside these tokens. -/
def Passes (N : Nonterminal) (ts : List TokenType) : Prop :=
  ∀ w : Watch, w.Ready N → ∃ w', w.Sees ts w' ∧ w'.blocks = w.blocks ∧ w.Behind w' N

variable {w : Watch} {t op : TokenType} {ts e l r b as ps ss st cs : List TokenType}

private theorem passes_atom (ht : t ∈ atoms) : Passes .expr [t] := by
  intro w hw
  have hall : ∀ t ∈ atoms, unwatched t = true ∧ t ∈ exprEnds := by decide
  exact ⟨_, sees_plain (joined_of_notEnds hw t) (hall t ht).1 (sees_nil.mpr rfl), rfl, (hall t ht).2, rfl, rfl⟩

private theorem passes_parens (he : Passes .expr e) : Passes .expr (.lparen :: (e ++ [.rparen])) := by
  intro w hw
  obtain ⟨w₁, h₁, hb, -, hh, -⟩ :=
    he ⟨.lparen, w.blocks, w.header, false⟩ (show TokenType.lparen ∉ lineEnds by decide)
  have hsnoc := h₁.snoc (joined_of_notBegins (b := .rparen) (by decide) _) rfl
  exact ⟨_, sees_plain (joined_of_notEnds hw _) rfl hsnoc, hb,
    (show TokenType.rparen ∈ exprEnds by decide), hh, rfl⟩

private theorem passes_call (has : Passes .args as) :
    Passes .expr (.ident :: .lparen :: (as ++ [.rparen])) := by
  intro w hw
  obtain ⟨w₁, h₁, hb, hh⟩ :=
    has ⟨.lparen, w.blocks, w.header, false⟩ (show TokenType.lparen ∉ lineEnds by decide)
  have hsnoc := h₁.snoc (joined_of_notBegins (b := .rparen) (by decide) _) rfl
  exact ⟨_, sees_plain (joined_of_notEnds hw _) rfl (sees_plain rfl rfl hsnoc), hb,
    (show TokenType.rparen ∈ exprEnds by decide), hh, rfl⟩

private theorem passes_unary (hop : op = .minus ∨ op = .not) (he : Passes .expr e) :
    Passes .expr (op :: e) := by
  intro w hw
  have hplain : unwatched op = true ∧ op ∉ lineEnds := by
    rcases hop with rfl | rfl <;> decide
  obtain ⟨w₁, h₁, hb, hbehind⟩ := he ⟨op, w.blocks, w.header, false⟩ hplain.2
  exact ⟨w₁, sees_plain (joined_of_notEnds hw _) hplain.1 h₁, hb, hbehind⟩

private theorem passes_binary (hop : op ∈ binaryOps) (hl : Passes .expr l) (hr : Passes .expr r) :
    Passes .expr (l ++ op :: r) := by
  intro w hw
  have hall : ∀ t ∈ binaryOps, unwatched t = true ∧ t ∉ lineEnds := by decide
  obtain ⟨w₁, h₁, hb₁, hlast, hh₁, -⟩ := hl w hw
  obtain ⟨w₂, h₂, hb₂, hlast₂, hh₂, hc₂⟩ := hr ⟨op, w₁.blocks, w₁.header, false⟩ (hall op hop).2
  refine ⟨w₂, sees_append.mpr ⟨w₁, h₁, sees_plain (joined_op _ hlast _ hop) (hall op hop).1 h₂⟩,
    hb₂.trans hb₁, hlast₂, hh₂.trans hh₁, hc₂⟩

private theorem passes_nextArg (he : Passes .expr e) (has : Passes .args as) :
    Passes .args (e ++ .comma :: as) := by
  intro w hw
  obtain ⟨w₁, h₁, hb₁, -, hh₁, -⟩ := he w hw
  obtain ⟨w₂, h₂, hb₂, hh₂⟩ :=
    has ⟨.comma, w₁.blocks, w₁.header, false⟩ (show TokenType.comma ∉ lineEnds by decide)
  have hcomma := sees_plain (joined_of_notBegins (b := .comma) (by decide) w₁.last) rfl h₂
  exact ⟨w₂, sees_append.mpr ⟨w₁, h₁, hcomma⟩, hb₂.trans hb₁, hh₂.trans hh₁⟩

private theorem passes_nextParam (hps : Passes .params ps) : Passes .params (.ident :: .comma :: ps) := by
  intro w hw
  obtain ⟨w₁, h₁, hb, hh⟩ := hps ⟨.comma, w.blocks, w.header, false⟩ (show TokenType.comma ∉ lineEnds by decide)
  exact ⟨w₁, sees_plain (joined_of_notEnds hw _) rfl (sees_plain rfl rfl h₁), hb, hh⟩

private theorem passes_block (hss : Passes .statements ss) :
    Passes .block (.colon :: .newline :: .indent :: (ss ++ [.dedent])) := by
  intro w _
  obtain ⟨w₁, h₁, hb, -⟩ :=
    hss ⟨.indent, w.header :: w.blocks, w.header, false⟩ (show TokenType.indent ∉ lineEnds by decide)
  have hinner := sees_append.mpr ⟨w₁, h₁, sees_cons.mpr ⟨_, step_dedent w₁, sees_nil.mpr rfl⟩⟩
  refine ⟨_, sees_plain (joined_of_notBegins (by decide) _) rfl (sees_cons.mpr ⟨_, step_newline _,
    sees_cons.mpr ⟨_, step_indent _, hinner⟩⟩), ?_, rfl, ?_⟩
  · rw [hb]
    rfl
  · rw [hb]
    rfl

/-- A condition and the block under it. -/
theorem passes_header (he : Passes .expr e) (hb : Passes .block b) (hw : w.last ∉ lineEnds) :
    ∃ w', w.Sees (e ++ b) w' ∧ w'.blocks = w.blocks ∧ w'.last = .dedent ∧ w'.closed = w.header := by
  obtain ⟨w₁, h₁, hb₁, -, hh₁, -⟩ := he w hw
  obtain ⟨w₂, h₂, hb₂, hlast, hc⟩ := hb w₁ trivial
  exact ⟨w₂, sees_append.mpr ⟨w₁, h₁, h₂⟩, hb₂.trans hb₁, hlast, hc.trans hh₁⟩

/-- Behind the first token of an if or elif. -/
private theorem passes_chain (he : Passes .expr e) (hb : Passes .block b) (hcs : Passes .clauses cs)
    (hw : w.last ∉ lineEnds) (hh : w.header = true) :
    ∃ w', w.Sees (e ++ (b ++ cs)) w' ∧ w'.blocks = w.blocks ∧ (w'.last = .newline ∨ w'.last = .dedent) := by
  obtain ⟨w₁, h₁, hb₁, hlast, hc⟩ := passes_header he hb hw
  have hready : w₁.Ready .clauses := ⟨by rw [hlast]; decide, hc.trans hh⟩
  obtain ⟨w₂, h₂, hb₂, hend⟩ := hcs w₁ hready
  rw [← List.append_assoc]
  refine ⟨w₂, sees_append.mpr ⟨w₁, h₁, h₂⟩, hb₂.trans hb₁, ?_⟩
  rcases hend with hsame | hend
  · exact .inr (hsame.trans hlast)
  · exact hend

private theorem notEnds_of_line (h : w.last = .newline ∨ w.last = .dedent) : w.last ∉ lineEnds := by
  rcases h with h | h <;> rw [h] <;> decide

/-- Whatever the grammar derives passes the watch. -/
theorem Derives.passes {N : Nonterminal} (h : Derives N ts) : Passes N ts := by
  induction h with
  | atom ht => exact passes_atom ht
  | parens _ ih => exact passes_parens ih
  | call _ ih => exact passes_call ih
  | unary hop _ ih => exact passes_unary hop ih
  | binary hop _ _ ihl ihr => exact passes_binary hop ihl ihr
  | noArg => exact fun w _ => ⟨w, sees_nil.mpr rfl, rfl, rfl⟩
  | lastArg _ ih =>
    intro w hw
    obtain ⟨w', hs, hb, -, hh, -⟩ := ih w hw
    exact ⟨w', hs, hb, hh⟩
  | nextArg _ _ ihe ihas => exact passes_nextArg ihe ihas
  | noParam => exact fun w _ => ⟨w, sees_nil.mpr rfl, rfl, rfl⟩
  | lastParam => exact fun w hw => ⟨_, sees_plain (joined_of_notEnds hw _) rfl (sees_nil.mpr rfl), rfl, rfl⟩
  | nextParam _ ih => exact passes_nextParam ih
  | expression _ ih =>
    intro w hw
    obtain ⟨w', hs, hb, -, -, hc⟩ := ih w hw
    exact ⟨w', hs, hb, hc⟩
  | assignment _ ih =>
    intro w hw
    obtain ⟨w', hs, hb, -, -, hc⟩ :=
      ih ⟨.assign, w.blocks, w.header, false⟩ (show TokenType.assign ∉ lineEnds by decide)
    exact ⟨w', sees_plain (joined_of_notEnds hw _) rfl (sees_plain rfl rfl hs), hb, hc⟩
  | ret => exact fun w hw => ⟨_, sees_plain (joined_of_notEnds hw _) rfl (sees_nil.mpr rfl), rfl, rfl⟩
  | retValue _ ih =>
    intro w hw
    obtain ⟨w', hs, hb, -, -, hc⟩ :=
      ih ⟨.kwReturn, w.blocks, w.header, false⟩ (show TokenType.kwReturn ∉ lineEnds by decide)
    exact ⟨w', sees_plain (joined_of_notEnds hw _) rfl hs, hb, hc⟩
  | brk => exact fun w hw => ⟨_, sees_plain (joined_of_notEnds hw _) rfl (sees_nil.mpr rfl), rfl, rfl⟩
  | cont => exact fun w hw => ⟨_, sees_plain (joined_of_notEnds hw _) rfl (sees_nil.mpr rfl), rfl, rfl⟩
  | block _ ih => exact passes_block ih
  | noClause => exact fun w _ => ⟨w, sees_nil.mpr rfl, rfl, .inl rfl⟩
  | blankClause _ ih =>
    intro w hw
    obtain ⟨w', hs, hb, hend⟩ :=
      ih { w with last := .newline } ⟨(show TokenType.newline ∉ lineEnds by decide), hw.2⟩
    exact ⟨w', sees_cons.mpr ⟨_, step_newline w, hs⟩, hb, .inr (hend.elim .inl id)⟩
  | elifDo _ _ _ ihe ihb ihcs =>
    intro w hw
    obtain ⟨w', hs, hb, hend⟩ := passes_chain (w := ⟨.kwElif, w.blocks, true, false⟩) ihe ihb ihcs
      (show TokenType.kwElif ∉ lineEnds by decide) rfl
    exact ⟨w', sees_cons.mpr ⟨_, step_elif hw.1 hw.2, hs⟩, hb, .inr hend⟩
  | elseDo _ ih =>
    intro w hw
    obtain ⟨w', hs, hb, hlast, -⟩ := ih ⟨.kwElse, w.blocks, false, false⟩ trivial
    exact ⟨w', sees_cons.mpr ⟨_, step_header hw.1 (by decide), hs⟩, hb, .inr (.inr hlast)⟩
  | line _ ih =>
    intro w hw
    obtain ⟨w', hs, hb, -⟩ := ih w hw
    exact ⟨_, sees_append.mpr ⟨w', hs, sees_cons.mpr ⟨_, step_newline w', sees_nil.mpr rfl⟩⟩, hb,
      .inr (.inl rfl)⟩
  | ifDo _ _ _ ihe ihb ihcs =>
    intro w hw
    obtain ⟨w', hs, hb, hend⟩ := passes_chain (w := ⟨.kwIf, w.blocks, true, false⟩) ihe ihb ihcs
      (show TokenType.kwIf ∉ lineEnds by decide) rfl
    exact ⟨w', sees_cons.mpr ⟨_, step_if hw, hs⟩, hb, .inr hend⟩
  | whileDo _ _ ihe ihb =>
    intro w hw
    obtain ⟨w', hs, hb, hlast, -⟩ := passes_header (w := ⟨.kwWhile, w.blocks, false, false⟩) ihe ihb
      (show TokenType.kwWhile ∉ lineEnds by decide)
    exact ⟨w', sees_cons.mpr ⟨_, step_header hw (by decide), hs⟩, hb, .inr (.inr hlast)⟩
  | forIn _ _ ihe ihb =>
    intro w hw
    obtain ⟨w', hs, hb, hlast, -⟩ := passes_header (w := ⟨.kwIn, w.blocks, false, false⟩) ihe ihb
      (show TokenType.kwIn ∉ lineEnds by decide)
    exact ⟨w', sees_cons.mpr ⟨_, step_header hw (by decide), sees_plain rfl rfl (sees_plain rfl rfl hs)⟩, hb,
      .inr (.inr hlast)⟩
  | define _ _ ihps ihb =>
    intro w hw
    obtain ⟨w₁, h₁, hb₁, hh₁⟩ :=
      ihps ⟨.lparen, w.blocks, false, false⟩ (show TokenType.lparen ∉ lineEnds by decide)
    obtain ⟨w', hs, hb, hlast, -⟩ := ihb ⟨.rparen, w₁.blocks, w₁.header, false⟩ trivial
    have hparams := sees_append.mpr ⟨w₁, h₁, sees_plain (joined_of_notBegins (by decide) _) rfl hs⟩
    exact ⟨w', sees_cons.mpr ⟨_, step_header hw (by decide), sees_plain rfl rfl (sees_plain rfl rfl hparams)⟩,
      hb.trans hb₁, .inr (.inr hlast)⟩
  | nothing => exact fun w _ => ⟨w, sees_nil.mpr rfl, rfl, .inl rfl⟩
  | blank _ ih =>
    intro w hw
    obtain ⟨w', hs, hb, hend⟩ := ih { w with last := .newline } (show TokenType.newline ∉ lineEnds by decide)
    exact ⟨w', sees_cons.mpr ⟨_, step_newline w, hs⟩, hb, .inr (hend.elim .inl id)⟩
  | next _ _ ihst ihss =>
    intro w hw
    obtain ⟨w₁, h₁, hb₁, hend₁⟩ := ihst w hw
    have hready : w₁.last ∉ lineEnds := hend₁.elim (fun h => h ▸ hw) notEnds_of_line
    obtain ⟨w₂, h₂, hb₂, hend₂⟩ := ihss w₁ hready
    exact ⟨w₂, sees_append.mpr ⟨w₁, h₁, h₂⟩, hb₂.trans hb₁,
      hend₂.elim (fun h => hend₁.imp h.trans (Or.imp h.trans h.trans)) .inr⟩
  | program _ ih =>
    intro w hw
    obtain ⟨w', hs, hb, -⟩ := ih w hw
    exact ⟨_, hs.snoc (joined_of_notBegins (by decide) _) rfl, hb, trivial⟩

private theorem expr_begins {N : Nonterminal} (h : Derives N ts) (hN : N = .expr) :
    ∃ t rest, ts = t :: rest ∧ t ∈ begins ∧ t ≠ .kwElif := by
  induction h with
  | @atom t ht =>
    have hall : ∀ t ∈ atoms, t ∈ begins ∧ t ≠ .kwElif := by decide
    exact ⟨t, [], rfl, hall t ht⟩
  | parens _ _ => exact ⟨_, _, rfl, by decide, by decide⟩
  | call _ _ => exact ⟨_, _, rfl, by decide, by decide⟩
  | unary hop _ _ =>
    refine ⟨_, _, rfl, ?_⟩
    rcases hop with rfl | rfl <;> decide
  | binary _ _ _ ihl _ =>
    obtain ⟨t, rest, rfl, ht⟩ := ihl rfl
    exact ⟨t, _, rfl, ht⟩
  | _ => cases hN

/-- The first token of an expression. -/
theorem Derives.begins (h : Derives .expr e) : ∃ t rest, e = t :: rest ∧ t ∈ Gk.begins ∧ t ≠ .kwElif :=
  expr_begins h rfl

end GeckoOS.Gk
