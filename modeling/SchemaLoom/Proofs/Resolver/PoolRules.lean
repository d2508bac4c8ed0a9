/-
Guards look at the rules about members of user pools alone.

A guard goes through all rules of a table, numbers the owners among them and collects the groups by
their claims, whatever the provider.  That the rules about other callers leave no trace is owed to
how rules are declared: only a rule about members of user pools may come with a strategy
(`Rule.poolBased_of_declared`).  A rule without one names no owner and no groups, so nothing is
numbered or collected for it, and lists of rules that agree on the rules about members have the same
guards.
-/
import Mathlib.Data.List.Basic
import SchemaLoom.Outcome
import SchemaLoom.Proofs.Resolver.Containment

namespace SchemaLoom

namespace Access

/-- Arguments of a directive declare the rule `r`. -/
def Rule.IsDeclared (r : Rule) : Prop := ∃ args, Rule.declared args = .ok r

/-- The rules about members of user pools. -/
def poolRules (rules : List Rule) : List Rule := rules.filter (·.provider.poolBased)

/-! ### Declared rules -/

/-- Words stand for providers as they do where a rule is read. -/
theorem Provider.lookup_eq_ofText? (word : String) :
    (Provider.all.map fun p => (p.text, p)).lookup word = Provider.ofText? word := by
  simp only [Provider.all, List.map_cons, List.map_nil, List.lookup_cons, List.lookup_nil,
    Provider.ofText?, List.find?_cons, List.find?_nil, BEq.comm (a := word)]

/-- What a reader of words comes to stands beside the word. -/
theorem of_oneOf {α : Type} {choices : List (String × α)} {t : Tree} {a : α}
    (h : Form.oneOf choices t = .ok a) : t.text?.bind (choices.lookup ·) = some a := by
  unfold Form.oneOf at h
  split at h
  next b hfound => cases h; exact hfound
  · cases h

/-- A rule has the provider and the strategy that its arguments give. -/
theorem Rule.of_read {args : Form.Fields} {r : Rule} (h : Rule.read (.map args) = .ok r) :
    ((Tree.lookup (.text "provider") args).bind (·.text?)).bind Provider.ofText? = some r.provider ∧
      (((Tree.lookup (.text "strategy") args).getD .null).isNull = true → r.strategy = none) := by
  unfold Rule.read at h
  obtain ⟨given, hgiven, h⟩ := Outcome.of_bind_eq_ok h
  cases hgiven
  obtain ⟨provider, hprovider, h⟩ := Outcome.of_bind_eq_ok h
  obtain ⟨actions, -, h⟩ := Outcome.of_bind_eq_ok h
  obtain ⟨strategy, hstrategy, h⟩ := Outcome.of_bind_eq_ok h
  obtain ⟨-, -, h⟩ := Outcome.of_bind_eq_ok h
  cases h
  constructor
  · unfold Form.needed at hprovider
    split at hprovider
    next t hfound =>
      have hword := of_oneOf (Outcome.of_mapError_eq_ok hprovider)
      rw [hfound, Option.bind_some, ← hword]
      exact congrArg _ (funext fun word => (Provider.lookup_eq_ofText? word).symm)
    · cases hprovider
  · intro hnull
    unfold Form.defaulted at hstrategy
    split at hstrategy
    next t hfound =>
      rw [hfound, Option.getD_some] at hnull
      obtain rfl : t = .null := by
        unfold Tree.isNull at hnull
        split at hnull
        · rfl
        · cases hnull
      cases hstrategy
      rfl
    · cases hstrategy
      rfl

/-- **Only a rule about members of user pools has a strategy.** -/
theorem Rule.poolBased_of_declared {r : Rule} (h : r.IsDeclared) (hstrategy : r.strategy ≠ none) :
    r.provider.poolBased = true := by
  obtain ⟨args, h⟩ := h
  unfold Rule.declared at h
  dsimp only at h
  split at h
  · cases h
  next provider hgiven =>
    split at h
    · cases h
    next hfits =>
      obtain ⟨hprovider, hnone⟩ := Rule.of_read (Outcome.of_mapError_eq_ok h)
      have hsame : r.provider = provider := by
        cases hfound : Tree.lookup (.text "provider") args with
        | none => simp [hfound] at hprovider
        | some t =>
          rw [hfound] at hgiven hprovider
          exact Option.some.inj (hprovider.symm.trans hgiven)
      have hgivenstrategy := mt hnone hstrategy
      simpa [hgivenstrategy, hsame] using hfits

/-! ### What guards are made of

Rules without members of user pools are dropped before anything is looked at, so guards are the
same with them and without.
-/

section Pool

variable {rules : List Rule}

theorem needsGuard_poolRules (rules : List Rule) :
    needsGuard (poolRules rules) = needsGuard rules := by
  simp [needsGuard, poolRules, List.filter_filter]

/-- What is picked by strategies is picked from the rules about members. -/
theorem filterMap_poolRules {α : Type} {pick : Rule → Option α} (h : ∀ r ∈ rules, r.IsDeclared)
    (hpick : ∀ r : Rule, r.strategy = none → pick r = none) :
    (poolRules rules).filterMap pick = rules.filterMap pick := by
  rw [poolRules, List.filterMap_filter]
  refine List.filterMap_congr fun r hr => ?_
  by_cases hstrategy : r.strategy = none
  · simp [hpick r hstrategy]
  · simp [Rule.poolBased_of_declared (h r hr) hstrategy]

theorem owners_poolRules (h : ∀ r ∈ rules, r.IsDeclared) :
    owners (poolRules rules) = owners rules :=
  filterMap_poolRules h fun r hnone => by rw [hnone]

theorem groups_poolRules (h : ∀ r ∈ rules, r.IsDeclared) :
    groups (poolRules rules) = groups rules :=
  filterMap_poolRules h fun r hnone => by rw [hnone]

/-- Members have to be checked unless there is no rule about them or one of these admits all. -/
theorem needsGuard_eq_false_iff : needsGuard rules = false ↔
    poolRules rules = [] ∨ ∃ r ∈ poolRules rules, r.strategy = none := by
  rw [needsGuard, Bool.and_eq_false_iff]
  refine or_congr ?_ ?_
  · simp [poolRules]
  · simp [poolRules, List.all_eq_false, and_assoc]

end Pool

end Access

namespace Resolver

open Access

/-- The texts of all guards that rules give rise to, that of a field for one record. -/
def guardTexts (rules : List Rule) (record : String) : List String :=
  [itemGuard rules, listGuard rules, createGuard rules, changeGuard rules,
    fieldGuard rules record].map Template.text

/-- Guards are those of the rules about members. -/
theorem guardTexts_poolRules {rules : List Rule} (h : ∀ r ∈ rules, r.IsDeclared) (record : String) :
    guardTexts (poolRules rules) record = guardTexts rules record := by
  simp only [guardTexts, itemGuard, listGuard, createGuard, changeGuard, fieldGuard, memberBlock,
    groupLines, groupsByClaim, ownerLines, ownInputLines, needsGuard_poolRules, owners_poolRules h,
    groups_poolRules h]

/-- A block for members is empty exactly if they need not be checked. -/
theorem text_memberBlock_eq_empty_iff {title : String} {rules : List Rule} {body : Template} :
    (memberBlock title rules body).text = "" ↔ needsGuard rules = false := by
  unfold memberBlock
  split
  next hneeded =>
    simp [hneeded, authMode, Template.text_cons]
  next hnot => simp [hnot, Template.text]

/-- **Guards depend on the rules about members of user pools alone (`poolRules`), and are empty
exactly if there is none of these or one without a strategy.** -/
theorem guards_of_poolRules {rules others : List Rule} (hrules : ∀ r ∈ rules, r.IsDeclared)
    (hothers : ∀ r ∈ others, r.IsDeclared) (hsame : poolRules rules = poolRules others)
    (record : String) :
    guardTexts rules record = guardTexts others record ∧
      ∀ text ∈ guardTexts rules record, text = "" ↔
        poolRules rules = [] ∨ ∃ r ∈ poolRules rules, r.strategy = none := by
  constructor
  · rw [← guardTexts_poolRules hrules, hsame, guardTexts_poolRules hothers]
  · intro text htext
    rw [← needsGuard_eq_false_iff]
    simp only [guardTexts, List.map_cons, List.map_nil, List.mem_cons, List.not_mem_nil,
      or_false] at htext
    rcases htext with rfl | rfl | rfl | rfl | rfl <;> exact text_memberBlock_eq_empty_iff

/-- Members who are owners or editors. -/
def writerRules : List Rule :=
  [⟨.userPools, [.create, .update], some (.owner {})⟩,
    ⟨.userPools, Action.all, some (.groups ⟨["editors"], "cognito:groups"⟩)⟩]

/-- Writers, callers with a key in front of them, and services among them. -/
def mixedRules : List Rule :=
  [⟨.apiKey, [.read], none⟩] ++ writerRules.take 1 ++ [⟨.iam, Action.all, none⟩] ++
    writerRules.drop 1

/-- All of them can be declared. -/
theorem mixedRules_declared : ∀ r ∈ mixedRules, r.IsDeclared := by
  simp only [mixedRules, writerRules, List.take_succ_cons, List.take_zero, List.drop_succ_cons,
    List.drop_zero, List.cons_append, List.nil_append, List.forall_mem_cons, List.not_mem_nil,
    false_implies, implies_true, and_true]
  exact ⟨⟨[(.text "provider", .text "API_KEY"), (.text "actions", .list [.text "read"])], rfl⟩,
    ⟨[(.text "provider", .text "COGNITO_USER_POOLS"),
      (.text "actions", .list [.text "create", .text "update"]),
      (.text "strategy", .record [("type", .text "OWNER")])], rfl⟩,
    ⟨[(.text "provider", .text "IAM"), (.text "strategy", .null)], rfl⟩,
    ⟨[(.text "provider", .text "COGNITO_USER_POOLS"),
      (.text "strategy",
        .record [("type", .text "GROUP"), ("groups", .list [.text "editors"])])], rfl⟩⟩

/-- Rules about callers with a key and about services change no guard of writers. -/
theorem mixedRules_guards : (∀ r ∈ mixedRules, r.IsDeclared) ∧
    poolRules mixedRules = poolRules writerRules ∧ mixedRules ≠ writerRules ∧
    guardTexts mixedRules "$ctx.source" = guardTexts writerRules "$ctx.source" ∧
      "" ∉ guardTexts mixedRules "$ctx.source" := by
  have hamong : ∀ r ∈ writerRules, r ∈ mixedRules := by decide
  have hwriters : ∀ r ∈ writerRules, r.IsDeclared := fun r hr => mixedRules_declared r (hamong r hr)
  obtain ⟨hsame, hempty⟩ := guards_of_poolRules mixedRules_declared hwriters rfl "$ctx.source"
  refine ⟨mixedRules_declared, rfl, by decide, hsame, fun htext => ?_⟩
  exact absurd ((hempty "" htext).1 rfl) (by decide)

end Resolver

end SchemaLoom
