import HornClauses.Proofs.ExpressionTerm
import HornClauses.Proofs.ReaderOutcome
import HornClauses.Proofs.ReadingTokens
import HornClauses.Proofs.Rereading
import HornClauses.Proofs.RuleCompleteness
import HornClauses.Proofs.RuleSoundness
import HornClauses.Proofs.TokenJoints

/-!
# What is accepted

Three descriptions of the texts of expressions agree: the rules as parsing expressions, the same
rules as a context-free grammar over the longest tokens, and the reader that keeps a stack of
frames. What the reader returns is the only derivation, except that brackets around nothing are
always the empty list, and so its result depends on nothing but the tokens of the text.

* `Settings.readTerm_iff_tokenised`, `Settings.readTerms_iff_tokenised`: terms that are read, by the
  tokens of their text.
* `Grammar.accepts_iff_derives`: all of this, for one expression and for sequences of them.
-/

namespace HornClauses

open Expression

/-! ## Derivations and what is accepted -/

namespace Rule

variable {text : List Char}

theorem accepts_term_iff :
    Accepts .term text ↔ ∃ ts, Tokenised text ts ∧ ∃ d : Expression, d.Derives ts := by
  refine ⟨derives_of_accepts_term, ?_⟩
  rintro ⟨ts, htext, d, hd⟩
  exact accepts_term_of_derives htext hd

theorem accepts_sequence_iff :
    Accepts .sequence text ↔ ∃ ts, Tokenised text ts ∧ ∃ ds, DerivesAll ds ts := by
  refine ⟨derives_of_accepts_sequence, ?_⟩
  rintro ⟨ts, htext, ds, hds⟩
  exact accepts_sequence_of_derives htext hds

end Rule

/-! ## Derivations and what is read -/

namespace Grammar

variable {text : List Char} {ts : List Token}

theorem readTerm_of_derives (htext : Tokenised text ts) {d : Expression} (hd : d.Derives ts) :
    ∃ e, readTerm text = .ok e ∧ d.normal = e.erase := by
  have hnormal := Expression.normal_of_derives d hd htext.wellFormed
  obtain ⟨e, he, herase⟩ := readTerm_of_tokenised (hnormal.tokens.symm ▸ htext) hnormal.wellFormed
  exact ⟨e, he, by rw [herase, hnormal.erase]⟩

theorem readSequence_of_derives (htext : Tokenised text ts) {ds : List Expression}
    (hds : DerivesAll ds ts) : ∃ es, readSequence text = .ok es ∧ normalList ds = eraseList es := by
  have hnormal := Expression.normalList_of_derives ds hds htext.wellFormed
  obtain ⟨es, hes, herase⟩ := readSequence_of_tokenised (hnormal.tokens.symm ▸ htext)
    (normalList_ne_nil hds.ne_nil) hnormal.wellFormed
  exact ⟨es, hes, by rw [herase, hnormal.erase]⟩

theorem wellFormed_of_readSequence {es : List Expression} (h : readSequence text = .ok es) :
    es ≠ [] ∧ ∀ e ∈ es, e.WellFormed := by
  obtain ⟨f, hf, rfl⟩ := map_eq_ok.1 h
  exact ⟨f.expressions_ne_nil, (wellFormed_of_readFrame hf).expressions⟩

theorem exists_readTerm_iff :
    (∃ e, readTerm text = .ok e) ↔ ∃ ts, Tokenised text ts ∧ ∃ d : Expression, d.Derives ts := by
  constructor
  · rintro ⟨e, he⟩
    exact ⟨e.tokens, tokenised_of_readTerm he, e.erase,
      Expression.derives_erase e (wellFormed_of_readTerm he)⟩
  · rintro ⟨ts, htext, d, hd⟩
    obtain ⟨e, he, -⟩ := readTerm_of_derives htext hd
    exact ⟨e, he⟩

theorem exists_readSequence_iff :
    (∃ es, readSequence text = .ok es) ↔ ∃ ts, Tokenised text ts ∧ ∃ ds, DerivesAll ds ts := by
  constructor
  · rintro ⟨es, hes⟩
    obtain ⟨hne, hwell⟩ := wellFormed_of_readSequence hes
    exact ⟨tokensOfList es, tokenised_of_readSequence hes, eraseList es,
      Expression.derives_eraseList es hne hwell⟩
  · rintro ⟨ts, htext, ds, hds⟩
    obtain ⟨es, hes, -⟩ := readSequence_of_derives htext hds
    exact ⟨es, hes⟩

/-- What is read is a derivation, and the only one in which empty brackets are the empty list. -/
theorem derivations_of_readTerm {e : Expression} (h : readTerm text = .ok e) :
    ∃ ts, Tokenised text ts ∧ e.erase.Derives ts ∧ ∀ d : Expression, d.Derives ts →
      d.normal = e.erase ∧ (¬ HasEmptyBrackets ts → d = e.erase) := by
  have htext := tokenised_of_readTerm h
  refine ⟨_, htext, Expression.derives_erase e (wellFormed_of_readTerm h), fun d hd => ?_⟩
  obtain ⟨e', he', hnormal⟩ := readTerm_of_derives htext hd
  rw [h] at he'
  cases he'
  refine ⟨hnormal, fun hempty => ?_⟩
  rw [← hnormal, Expression.normal_eq_self d hd htext.wellFormed hempty]

theorem derivations_of_readSequence {es : List Expression} (h : readSequence text = .ok es) :
    ∃ ts, Tokenised text ts ∧ DerivesAll (eraseList es) ts ∧ ∀ ds, DerivesAll ds ts →
      normalList ds = eraseList es ∧ (¬ HasEmptyBrackets ts → ds = eraseList es) := by
  have htext := tokenised_of_readSequence h
  obtain ⟨hne, hwell⟩ := wellFormed_of_readSequence h
  refine ⟨_, htext, Expression.derives_eraseList es hne hwell, fun ds hds => ?_⟩
  obtain ⟨es', hes', hnormal⟩ := readSequence_of_derives htext hds
  rw [h] at hes'
  cases hes'
  refine ⟨hnormal, fun hempty => ?_⟩
  rw [← hnormal, Expression.normalList_eq_self ds hds htext.wellFormed hempty]

end Grammar

/-! ## Terms by tokens -/

namespace Settings

variable {settings : Settings} {text other : List Char} {ts : List Token}

/-- A text is read as the term of an expression that it is written with. -/
theorem readTerm_iff_tokenised {t : Term} (source : String) :
    settings.readTerm text = .ok t ↔ ∃ e : Expression, e.WellFormed ∧ Tokenised text e.tokens ∧
      e.toTerm settings source = .ok t := by
  rw [readTerm_eq_ok]
  constructor
  · rintro ⟨e, he, ht⟩
    exact ⟨e, Grammar.wellFormed_of_readTerm he, Grammar.tokenised_of_readTerm he,
      (Expression.toTerm_congr rfl t).2 ht⟩
  · rintro ⟨e, hwell, htext, ht⟩
    obtain ⟨e', he', herase⟩ := Grammar.readTerm_of_tokenised htext hwell
    exact ⟨e', he', (Expression.toTerm_congr herase t).2 ht⟩

theorem readTerms_iff_tokenised (hne : Text.trim text ≠ []) {ts : List Term} (source : String) :
    settings.readTerms text = .ok ts ↔ ∃ es, es ≠ [] ∧ (∀ e ∈ es, Expression.WellFormed e) ∧
      Tokenised text (Expression.tokensOfList es) ∧
        Expression.toTerms settings source es = .ok ts := by
  rw [readTerms_eq_ok]
  constructor
  · rintro (⟨hnil, -⟩ | ⟨-, es, hread, hts⟩)
    · exact absurd hnil hne
    · obtain ⟨hes, hwell⟩ := Grammar.wellFormed_of_readSequence hread
      exact ⟨es, hes, hwell, Grammar.tokenised_of_readSequence hread,
        (Expression.toTerms_congr rfl ts).2 hts⟩
  · rintro ⟨es, hes, hwell, htext, hts⟩
    obtain ⟨es', hread, herase⟩ := Grammar.readSequence_of_tokenised htext hes hwell
    exact Or.inr ⟨hne, es', hread, (Expression.toTerms_congr herase ts).2 hts⟩

/-- Texts with the same tokens are read as the same term. -/
theorem readTerm_of_tokenised (htext : Tokenised text ts) (hother : Tokenised other ts) {t : Term}
    (h : settings.readTerm text = .ok t) : settings.readTerm other = .ok t := by
  obtain ⟨e, hwell, he, ht⟩ := (readTerm_iff_tokenised "").1 h
  exact (readTerm_iff_tokenised "").2 ⟨e, hwell, he.unique htext ▸ hother, ht⟩

theorem readTerms_of_tokenised (htext : Tokenised text ts) (hother : Tokenised other ts)
    {us : List Term} (h : settings.readTerms text = .ok us) :
    settings.readTerms other = .ok us := by
  have htrim : Text.trim other = [] ↔ Text.trim text = [] := by
    rw [hother.trim_eq_nil_iff, htext.trim_eq_nil_iff]
  by_cases hnil : Text.trim text = []
  · have hus := (readTerms_eq_ok.1 h).resolve_right fun hread => hread.1 hnil
    exact readTerms_eq_ok.2 (Or.inl ⟨htrim.2 hnil, hus.2⟩)
  · obtain ⟨es, hes, hwell, htokens, hus⟩ := (readTerms_iff_tokenised hnil "").1 h
    exact (readTerms_iff_tokenised (mt htrim.1 hnil) "").2
      ⟨es, hes, hwell, htokens.unique htext ▸ hother, hus⟩

end Settings

/-! ## The three descriptions -/

namespace Grammar

/-- A text is accepted as an expression exactly if it consists of tokens that are derived, and
exactly if it is read. What is read is the only derivation, unless empty brackets are derived in
another way. The same holds of sequences, and texts with the same tokens are read as the same terms
or not at all. -/
theorem accepts_iff_derives (text : List Char) :
    (Rule.Accepts .term text ↔ ∃ ts, Tokenised text ts ∧ ∃ d : Expression, d.Derives ts) ∧
    (Rule.Accepts .term text ↔ ∃ e, readTerm text = .ok e) ∧
    (∀ e, readTerm text = .ok e → ∃ ts, Tokenised text ts ∧ e.erase.Derives ts ∧
      ∀ d : Expression, d.Derives ts →
        d.normal = e.erase ∧ (¬ HasEmptyBrackets ts → d = e.erase)) ∧
    (Rule.Accepts .sequence text ↔ ∃ ts, Tokenised text ts ∧ ∃ ds, DerivesAll ds ts) ∧
    (Rule.Accepts .sequence text ↔ ∃ es, readSequence text = .ok es) ∧
    (∀ es, readSequence text = .ok es → ∃ ts, Tokenised text ts ∧ DerivesAll (eraseList es) ts ∧
      ∀ ds, DerivesAll ds ts →
        normalList ds = eraseList es ∧ (¬ HasEmptyBrackets ts → ds = eraseList es)) ∧
    ∀ other ts, Tokenised text ts → Tokenised other ts → ∀ settings : Settings,
      (∀ t, settings.readTerm text = .ok t ↔ settings.readTerm other = .ok t) ∧
      ∀ us, settings.readTerms text = .ok us ↔ settings.readTerms other = .ok us := by
  refine ⟨Rule.accepts_term_iff, Rule.accepts_term_iff.trans exists_readTerm_iff.symm,
    fun e => derivations_of_readTerm, Rule.accepts_sequence_iff,
    Rule.accepts_sequence_iff.trans exists_readSequence_iff.symm,
    fun es => derivations_of_readSequence, fun other ts htext hother settings => ?_⟩
  refine ⟨fun t => ⟨?_, ?_⟩, fun us => ⟨?_, ?_⟩⟩
  · exact Settings.readTerm_of_tokenised htext hother
  · exact Settings.readTerm_of_tokenised hother htext
  · exact Settings.readTerms_of_tokenised htext hother
  · exact Settings.readTerms_of_tokenised hother htext

/-- Brackets around a blank are accepted and read like brackets around nothing. -/
theorem accepts_blank_brackets :
    Rule.Accepts .term "[ ]".toList ∧
      (∃ e, readTerm "[ ]".toList = .ok e ∧ e.erase = .chain "" [] (.list [])) ∧
      ∀ t, Settings.standard.readTerm "[ ]".toList = .ok t ↔
        Settings.standard.readTerm "[]".toList = .ok t := by
  have hend : Tokenised [] [] := .blank (by simp)
  have hclose : ∀ s, Token.scan? (s.dropWhile Text.isBlank) = some (.closeBracket, []) →
      Tokenised s [.closeBracket] := fun s hs => Tokenised.cons_iff.2 ⟨[], hs, hend⟩
  have hblank : Tokenised "[ ]".toList [.openBracket, .closeBracket] :=
    Tokenised.cons_iff.2 ⟨" ]".toList, by rfl, hclose _ (by rfl)⟩
  have hnone : Tokenised "[]".toList [.openBracket, .closeBracket] :=
    Tokenised.cons_iff.2 ⟨"]".toList, by rfl, hclose _ (by rfl)⟩
  have hnil : (Expression.chain "" [] (.list [])).Derives [.openBracket, .closeBracket] :=
    .chain .nil .nil
  obtain ⟨hderived, hread, honly, -, -, -, hsame⟩ := accepts_iff_derives "[ ]".toList
  have haccepts := hderived.2 ⟨_, hblank, _, hnil⟩
  obtain ⟨e, he⟩ := hread.1 haccepts
  obtain ⟨ts, htext, -, hunique⟩ := honly e he
  cases htext.unique hblank
  exact ⟨haccepts, ⟨e, he, (hunique _ hnil).1.symm⟩,
    (hsame _ _ hblank hnone Settings.standard).1⟩

end Grammar

end HornClauses
