import GeckoOS.Gk.ParserCursor

/-! When the parser stores behind the child array of a node: exactly if it comes
to a definition that has too many parameters. -/
namespace GeckoOS.Gk
open Lib
variable {α β : Type} {s s' s₀ s₁ : Run} {p : GkM α} {k : α → GkM β} {n c fuel : Nat} {expr stmt : GkM Nat}

/-- The program stores behind an array, or has no fuel for the way there. -/
def Faults (r : EStateM.Result Stop Run α) : Prop := ∃ e s', r = .error e s' ∧ (e = .overrun ∨ e = .outOfFuel)

theorem Faults.bind (h : Faults (p s)) : Faults ((p >>= k) s) := by
  obtain ⟨e, s', hp, he⟩ := h
  exact ⟨e, s', bind_error hp, he⟩

private theorem faults_outOfFuel (s : Run) : Faults ((throw .outOfFuel : GkM α) s) := ⟨_, s, rfl, .inr rfl⟩

/-! A call that faults makes the caller fault. -/

theorem faults_stmtLoop {ends : List TokenType} {e : GkError} (hc : LoopCalls stmt ends e n s s')
    (hs : Faults (stmt s')) :
    Faults (stmtLoop stmt ends e n fuel s) := by
  induction hc generalizing fuel with
  | here hne =>
    cases fuel with
    | zero => exact faults_outOfFuel _
    | succ fuel =>
      rw [stmtLoop, bind_ok (peek_apply _), if_pos hne]
      exact hs.bind
  | next hne hst hadd hrest ih =>
    cases fuel with
    | zero => exact faults_outOfFuel _
    | succ fuel =>
      rw [stmtLoop, bind_ok (peek_apply _), if_pos hne, bind_ok hst, bind_ok hadd,
        bind_ok (skipNewlines_apply _)]
      exact ih hs

theorem faults_parseBlock (hc : BlockCalls stmt s s') (hs : Faults (stmt s')) :
    Faults (parseBlock fuel stmt s) := by
  obtain ⟨hindent, n, s₁, hnode, hloop⟩ := hc
  rw [parseBlock, bind_ok (peek_apply s), bind_ok (expect_hit hindent (by decide) _), bind_ok hnode,
    bind_ok (skipNewlines_apply s₁)]
  exact (faults_stmtLoop hloop hs).bind

theorem faults_parseHeader {e : GkError} (hc : HeaderCalls expr stmt s s') (hs : Faults (stmt s')) :
    Faults (parseHeader fuel expr stmt e s) := by
  obtain ⟨c, s₁, hexpr, hcolon, hblock⟩ := hc
  rw [parseHeader, bind_ok hexpr, bind_ok (expect_hit hcolon (by decide) e),
    bind_ok (matchToken_apply (by decide) _)]
  exact (faults_parseBlock hblock hs).bind

theorem faults_parseIf (hne : s.current.type ≠ .eof) (hc : IfCalls fuel expr stmt s s')
    (hs : Faults (stmt s')) :
    Faults (parseIf fuel expr stmt s) := by
  obtain ⟨n, s₁, hnode, hc⟩ := hc
  rw [parseIf, bind_ok (peek_apply s), bind_ok (advance_apply hne), bind_ok hnode]
  obtain hheader | ⟨c, b, s₂, s₃, hheader, hset, hc⟩ := hc
  · exact (faults_parseHeader hheader hs).bind
  · rw [bind_ok hheader]
    dsimp only
    rw [bind_ok hset, bind_ok (skipNewlines_apply s₃), bind_ok (check_apply _ _)]
    obtain ⟨helif, rfl⟩ | ⟨helse, hcolon, hblock⟩ := hc
    · rw [if_pos (beq_iff_eq.mpr helif)]
      exact hs.bind
    · rw [if_neg (by rw [helse]; decide), bind_ok (check_apply _ _), if_pos (beq_iff_eq.mpr helse),
        bind_ok (advance_apply (by rw [helse]; decide)), bind_ok (expect_hit hcolon (by decide) _),
        bind_ok (matchToken_apply (by decide) _)]
      exact (faults_parseBlock hblock hs).bind

/-- Behind its head a definition parses its body, and stores that with no check. -/
theorem parseDef_head (ht : s.current.type = .kwDef) (hhead : DefHead fuel s n s₁) : parseDef fuel stmt s = (do
    let body ← parseBlock fuel stmt
    addChild n body
    return n : GkM Nat) s₁ := by
  obtain ⟨hident, s₂, s₃, hleaf, hlparen, hloop, hrparen, hcolon, rfl⟩ := hhead
  rw [parseDef, bind_ok (peek_apply s), bind_ok (advance_apply (by rw [ht]; decide)), bind_ok (peek_apply _),
    if_neg (not_not.mpr hident)]
  dsimp only
  have hrest : (s₃.forward 1).forward 1 = s₃.forward 2 := rfl
  have hname : (s.forward 1).forward 1 = s.forward 2 := rfl
  rw [bind_ok (advance_apply (by rw [hident]; decide)), hname, bind_ok hleaf,
    bind_ok (expect_hit hlparen (by decide) _), bind_ok hloop,
    bind_ok (expect_hit hrparen (by decide) _), bind_ok (expect_hit hcolon (by decide) _), hrest,
    bind_ok (matchToken_apply (by decide) _)]

theorem faults_parseStmt (hc : StmtCalls fuel s s') (hs : Faults (parseStmt fuel s')) :
    Faults (parseStmt (fuel + 1) s) := by
  rw [parseStmt, bind_ok (peek_apply s)]
  cases ht : s.current.type <;> simp only [StmtCalls, ht] at hc
  case kwDef =>
    obtain ⟨n, s₁, hhead, hblock⟩ := hc
    dsimp only
    rw [parseDef_head ht hhead]
    exact (faults_parseBlock hblock hs).bind
  case kwIf => exact faults_parseIf (by rw [ht]; decide) hc hs
  case kwElif => exact faults_parseIf (by rw [ht]; decide) hc hs
  case kwWhile =>
    obtain ⟨n, s₁, hnode, hheader⟩ := hc
    dsimp only
    rw [parseWhile, bind_ok (peek_apply s), bind_ok (advance_apply (by rw [ht]; decide)), bind_ok hnode]
    exact (faults_parseHeader hheader hs).bind
  case kwFor =>
    obtain ⟨hident, hin, n, s₁, hleaf, hheader⟩ := hc
    have hname : (s.forward 1).forward 1 = s.forward 2 := rfl
    have hfor : (s.forward 2).forward 1 = s.forward 3 := rfl
    dsimp only
    rw [parseFor, bind_ok (peek_apply s), bind_ok (advance_apply (by rw [ht]; decide)), bind_ok (peek_apply _),
      if_neg (not_not.mpr hident)]
    dsimp only
    rw [bind_ok (advance_apply (by rw [hident]; decide)), hname, bind_ok (expect_hit hin (by decide) _), hfor,
      bind_ok hleaf]
    exact (faults_parseHeader hheader hs).bind

theorem faults_gkParse (hc : ParseCalls s₀ fuel s) (hs : Faults (parseStmt fuel s)) : Faults (gkParse s₀) := by
  induction hc with
  | top hroot hcall =>
    rw [gkParse_eq, bind_ok hroot, bind_ok (skipNewlines_apply _)]
    exact (faults_stmtLoop hcall hs).bind
  | inner _ hcall ih => exact ih (faults_parseStmt hcall hs)

/-! A definition that is too wide faults. -/

theorem addChild_full (h : maxChildren ≤ (s.nodes[n]?.map fun x => x.children.length).getD 0) :
    addChild n c s = .error .overrun s := by
  rw [addChild, bind_ok (get_apply s), if_neg (Nat.not_lt.mpr h)]
  rfl

theorem addChild_room (h : (s.nodes[n]?.map fun x => x.children.length).getD 0 < maxChildren) :
    ∃ s', addChild n c s = .ok () s' := by
  rw [addChild, bind_ok (get_apply s), if_pos h]
  exact ⟨_, rfl⟩

theorem faults_paramLoop {label : Label} {trees : List (Lib.Tree Label)} {j : Nat}
    (ho : Open s₀ j label trees s)
    (hle : trees.length ≤ maxChildren) (hcount : maxChildren < trees.length + paramCount s.types)
    (hroom : s.nodes.length + (maxChildren - trees.length) < maxNodes) :
      Faults (paramLoop s₀.nodes.length fuel s) := by
  induction fuel generalizing s j trees with
  | zero => exact faults_outOfFuel s
  | succ fuel ih =>
    have hident : s.current.type = .ident := by
      by_contra h
      rw [paramCount_eq_zero h] at hcount
      omega
    obtain ⟨s₁, hleaf, -⟩ := leaf_room .var s.current.line 0 s.current.strVal (s := s.forward 1)
      (Nat.lt_of_le_of_lt (Nat.le_add_right _ _) hroom)
    obtain ⟨⟨new, hg⟩, hadd⟩ := ho.param hleaf
    rw [paramLoop, bind_ok (check_apply _ s), bind_ok (check_apply _ s), if_pos (by rw [hident]; decide),
      bind_ok (peek_apply s), if_neg (not_not.mpr hident)]
    dsimp only
    rw [bind_ok (advance_apply (by rw [hident]; decide)), bind_ok hleaf]
    have hsame := ho.childCount hg
    obtain hlt | hfull := Nat.lt_or_ge trees.length maxChildren
    · obtain ⟨s₂, hstore⟩ := addChild_room (hsame ▸ hlt)
      obtain ⟨-, ho', hty, hlen⟩ := hadd hstore
      have hcomma : s₂.current.type = .comma := by
        by_contra h
        rw [paramCount_last hident hty h] at hcount
        omega
      rw [bind_ok hstore, bind_ok (matchToken_hit hcomma (by decide)), if_pos rfl]
      refine ih (ho'.forward 1) ?_ ?_ ?_
      · rw [List.length_append, List.length_singleton]
        exact hlt
      · rw [paramCount_comma hident hty hcomma] at hcount
        rw [List.length_append, List.length_singleton]
        omega
      · rw [forward_nodes, hlen, List.length_append, List.length_singleton]
        omega
    · exact Faults.bind ⟨_, _, addChild_full (hsame ▸ hfull), .inl rfl⟩

theorem faults_wideDef (h : WideDef fuel (parseStmt fuel) s) : Faults (parseStmt (fuel + 1) s) := by
  obtain ⟨ht, hident, hlparen, h⟩ := h
  rw [parseStmt, bind_ok (peek_apply s), ht]
  dsimp only
  obtain ⟨hcount, hroom⟩ | ⟨hcount, n, s₁, body, s₂, hhead, hbody⟩ := h
  · obtain ⟨s₁, hleaf, -⟩ := leaf_room .defNode s.current.line 0 (s.forward 1).current.strVal (s := s.forward 2)
      (by rw [forward_nodes]; omega)
    rw [forward_nodes] at hleaf
    obtain ⟨-, hcurrent, hparams, hnodes, ho⟩ := Open.name hleaf
    have hname : (s.forward 1).forward 1 = s.forward 2 := rfl
    rw [parseDef, bind_ok (peek_apply s), bind_ok (advance_apply (by rw [ht]; decide)), bind_ok (peek_apply _),
      if_neg (not_not.mpr hident)]
    dsimp only
    rw [bind_ok (advance_apply (by rw [hident]; decide)), hname, bind_ok hleaf,
      bind_ok (expect_hit (hcurrent ▸ hlparen) (by decide) _)]
    refine Faults.bind (faults_paramLoop ho (Nat.zero_le _) ?_ ?_)
    · rw [hparams, List.length_nil, Nat.zero_add]
      exact hcount
    · rw [forward_nodes, hnodes, List.length_nil]
      omega
  · obtain ⟨-, s₃, s₄, hleaf, -, hloop, -, -, rfl⟩ := id hhead
    obtain ⟨rfl, -, hparams, -, ho⟩ := Open.name hleaf
    obtain ⟨j, trees, ho₄, hlen, -⟩ := paramLoop_count ho (Nat.zero_le _) hloop
    obtain ⟨i, new, hg⟩ := grows_parseBlock (builds_parseStmt fuel) hbody
    rw [parseDef_head ht hhead, bind_ok hbody]
    refine Faults.bind ⟨_, _, addChild_full ?_, .inl rfl⟩
    rw [(ho₄.forward 2).childCount hg, hlen, hparams, hcount]
    exact Nat.le_add_left _ _

/-! The whole parse. -/

/-- The tokens of `gk_lex` end with the only EOF, so that the parser has fuel enough. -/
theorem gkParse_overrun_iff {body : List Token} {last : Token} (htokens : s.tokens = body ++ [last])
    (hbody : ∀ t ∈ body, t.type ≠ .eof) (hlast : last.type = .eof) :
    (∃ s', gkParse s = .error .overrun s') ↔ MeetsWideDef s := by
  constructor
  · rintro ⟨s', h⟩
    exact (walked_gkParse s).overrun s' h
  · rintro ⟨fuel, s₁, hcall, hwide⟩
    obtain ⟨e, s', h, he⟩ := faults_gkParse hcall (faults_wideDef hwide)
    obtain ⟨root, s'', h'⟩ | ⟨s'', err, h', -⟩ | ⟨-, h'⟩ := (gkParse_inside htokens hbody hlast).ends
    · rw [h] at h'
      cases h'
    · rw [h] at h'
      cases h'
      cases he <;> contradiction
    · exact h'

/-- Nothing else goes wrong. -/
theorem wellFormed_of_inside {input : List (List UInt8)} {tokens : List Token}
    (hin : ∀ s', gkParse (lexedState input tokens) ≠ .error .overrun s') :
    (∀ m ∈ (final (gkParse (lexedState input tokens))).moments, m.Narrow) ∧
    (∀ s', gkParse (lexedState input tokens) ≠ .error .overrun s') ∧
    ∀ root s', gkParse (lexedState input tokens) = .ok root s' →
      IsForest (cell s'.nodes) {i | i < s'.nodes.length} [root] := by
  have hw := walked_gkParse (lexedState input tokens)
  have hempty : (lexedState input tokens).cleared.Narrow := by
    intro x hx
    cases hx
  refine ⟨fun m hm => ?_, hin, fun root s' h => ?_⟩
  · obtain rfl | hm := List.mem_cons.mp hm
    · exact hw.state.narrow hempty
    · obtain hm | ⟨hm, -⟩ := hw.past m hm
      · rw [List.mem_singleton.mp hm]
        intro x hx
        cases hx
      · exact hm.narrow hempty
  · obtain ⟨rfl, sts, hl⟩ := gkParse_tree h
    have hf := hl.isForest
    have hset : Set.Ico 0 s'.nodes.length = {i | i < s'.nodes.length} := by
      ext i
      simp
    rwa [hset] at hf

/-- If the parser comes to no definition that does not fit, then no node has more than 64
children at any moment of the parse, nothing is stored outside of the arrays, and the
nodes of a successful parse are exactly those of one tree. If it comes to one, it stores
behind the array. -/
theorem gkParse_wellFormed (input : List (List UInt8)) {tokens body : List Token} {last : Token}
    (htokens : tokens = body ++ [last]) (hbody : ∀ t ∈ body, t.type ≠ .eof) (hlast : last.type = .eof) :
    ((∀ m ∈ (final (gkParse (lexedState input tokens))).moments, m.Narrow) ∧
      (∀ s', gkParse (lexedState input tokens) ≠ .error .overrun s') ∧
      ∀ root s', gkParse (lexedState input tokens) = .ok root s' →
        IsForest (cell s'.nodes) {i | i < s'.nodes.length} [root]) ↔
          ¬ MeetsWideDef (lexedState input tokens) := by
  have hoverrun : (∃ s', gkParse (lexedState input tokens) = .error .overrun s') ↔
    MeetsWideDef (lexedState input tokens) :=
    gkParse_overrun_iff (s := lexedState input tokens) htokens hbody hlast
  constructor
  · rintro ⟨-, hin, -⟩ hmeets
    obtain ⟨s', h⟩ := hoverrun.mpr hmeets
    exact hin s' h
  · intro hno
    exact wellFormed_of_inside fun s' h => hno (hoverrun.mp ⟨s', h⟩)

/-- `def f(x): return x` is parsed well. -/
theorem gkParse_wellFormed_identity :
    (∀ m ∈ (final (gkParse (lexedState [] identityTokens))).moments, m.Narrow) ∧
    (∀ s', gkParse (lexedState [] identityTokens) ≠ .error .overrun s') ∧
    ∀ root s', gkParse (lexedState [] identityTokens) = .ok root s' →
      IsForest (cell s'.nodes) {i | i < s'.nodes.length} [root] := by
  have htokens : identityTokens = identityTokens.dropLast ++ [⟨.eof, 0, [], 3⟩] := rfl
  exact (gkParse_wellFormed [] htokens (by decide) rfl).mpr
    (not_meetsWideDef (s := lexedState [] identityTokens) (by decide))

/-- `def f(p, p, ..):` with 64 parameters and an empty body. -/
def wideSource : List UInt8 :=
  ascii "def f(p" ++ (List.replicate 63 (ascii ",p")).flatten ++ ascii "):\n 1\n"

/-- The tokens of a source, and whether the parser stores behind an array on them. -/
def lexed (src : List UInt8) : Option Run :=
  match gkLex src (freshState []).start with
  | .ok _ s => some s
  | .error _ _ => none

def overruns (s : Run) : Bool :=
  match gkParse s with
  | .error .overrun _ => true
  | _ => false

private theorem lexed_eq_some {src : List UInt8} (h : lexed src = some s) :
    gkLex src (freshState []).start = .ok () s := by
  unfold lexed at h
  split at h
  · next heq =>
    cases h
    exact heq
  · cases h

private theorem overruns_eq_true (h : overruns s = true) : ∃ s', gkParse s = .error .overrun s' := by
  unfold overruns at h
  split at h
  · next s' heq => exact ⟨s', heq⟩
  · cases h

/-- With 64 parameters the body is stored behind the array. -/
theorem gkParse_overrun : ∃ s s', gkLex wideSource (freshState []).start = .ok () s ∧
    gkParse s = .error .overrun s' := by
  have h : (lexed wideSource).any overruns = true := by decide +kernel
  cases hs : lexed wideSource with
  | none =>
    rw [hs] at h
    cases h
  | some s =>
    rw [hs] at h
    obtain ⟨s', hp⟩ := overruns_eq_true h
    exact ⟨s, s', lexed_eq_some hs, hp⟩

end GeckoOS.Gk
