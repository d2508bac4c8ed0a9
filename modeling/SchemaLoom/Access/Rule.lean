/-
Access rules.

A rule admits the callers of one `Provider` to some of the four `Action`s.  For callers of a user
pool a `Strategy` may narrow it down to the owners of an item or to the members of groups.

Rules are read from the arguments of a directive (`Rule.read`).  `Rule.declared` is the reader
that directives use: it looks at the provider first, so that an unknown one is reported before
anything else that is wrong with the rule.
-/
import SchemaLoom.Form

namespace SchemaLoom.Access

/-- The providers that authenticate callers. -/
inductive Provider where
  | userPools | apiKey | iam
  deriving DecidableEq, Repr

namespace Provider

/-- Every provider. -/
def all : List Provider := [userPools, apiKey, iam]

/-- The word for a provider in rules. -/
def text : Provider → String
  | userPools => "COGNITO_USER_POOLS"
  | apiKey => "API_KEY"
  | iam => "IAM"

/-- The directive that opens a declaration to the callers of a provider. -/
def directive : Provider → String
  | userPools => "aws_cognito_user_pools"
  | apiKey => "aws_api_key"
  | iam => "aws_iam"

/-- The callers of the provider are members of a user pool. -/
def poolBased : Provider → Bool
  | userPools => true
  | _ => false

/-- The provider that a word stands for. -/
def ofText? (word : String) : Option Provider := all.find? (·.text == word)

end Provider

/-- What callers do with items. -/
inductive Action where
  | create | read | update | delete
  deriving DecidableEq, Repr

namespace Action

/-- Every action. -/
def all : List Action := [create, read, update, delete]

/-- The word for an action. -/
def text : Action → String
  | create => "create"
  | read => "read"
  | update => "update"
  | delete => "delete"

end Action

/-- Admits a caller whose claim is named by a field of the item. -/
structure Owner where
  field : String := "owner"
  claim : String := "username"
  deriving DecidableEq, Repr

/-- Admits the members of some groups. -/
structure Groups where
  names : List String
  claim : String := "cognito:groups"
  deriving DecidableEq, Repr

/-- How a rule narrows down the callers that it admits. -/
inductive Strategy where
  | owner (criterion : Owner)
  | groups (criterion : Groups)
  deriving DecidableEq, Repr

/-- An access rule. -/
structure Rule where
  provider : Provider
  actions : List Action := Action.all
  strategy : Option Strategy := none
  deriving DecidableEq, Repr

/-- The claim of a caller that counts as the name of the caller. -/
def defaultIdentityClaim : String := "username"

/-- Reads an owner strategy. -/
def Owner.read (t : Tree) : Form.Check Owner := do
  let given ← Form.fieldsOf "OwnerStrategy" t
  let _ ← Form.defaulted given "type" () (Form.oneOf [("OWNER", ())])
  let field ← Form.renamed given "ownerField" "owner_field" "owner" Form.text
  let claim ← Form.renamed given "identityClaim" "identity_claim" defaultIdentityClaim Form.text
  Form.closed given
    [("type", none), ("ownerField", some "owner_field"), ("identityClaim", some "identity_claim")]
  return { field, claim }

/-- Reads a group strategy. -/
def Groups.read (t : Tree) : Form.Check Groups := do
  let given ← Form.fieldsOf "GroupStrategy" t
  let _ ← Form.defaulted given "type" () (Form.oneOf [("GROUP", ())])
  let names ← Form.needed given "groups" (Form.someOf Form.text)
  let claim ← Form.renamed given "groupClaim" "group_claim" "cognito:groups" Form.text
  Form.closed given [("type", none), ("groups", none), ("groupClaim", some "group_claim")]
  return { names, claim }

/-- Reads a strategy by its type. -/
def Strategy.read : Tree → Form.Check Strategy :=
  Form.tagged "type"
    [("OWNER", fun t => owner <$> Owner.read t), ("GROUP", fun t => groups <$> Groups.read t)]

namespace Rule

/-- The rule `r` is about `action`. -/
def covers (r : Rule) (action : Action) : Bool := r.actions.contains action

/-- Reads a rule. -/
def read (t : Tree) : Form.Check Rule := do
  let given ← Form.fieldsOf "AuthSpec" t
  let providers := Provider.all.map fun p => (p.text, p)
  let provider ← Form.needed given "provider" (Form.oneOf providers)
  let actions := Action.all.map fun a => (a.text, a)
  let actions ← Form.defaulted given "actions" Action.all (Form.listOf (Form.oneOf actions))
  let strategy ← Form.defaulted given "strategy" none (Form.optional Strategy.read)
  Form.closed given [("provider", none), ("actions", none), ("strategy", none)]
  return { provider, actions, strategy }

end Rule

/-- Why directive arguments are no access rule. -/
inductive RuleFault where
  /-- The provider is missing or unknown. -/
  | unknownProvider (given : Tree)
  /-- The callers of the provider have no claims that a strategy could look at. -/
  | strategyUnsupported (provider : Provider)
  | form (fault : FormFault)

/-- The wording of a fault. -/
def RuleFault.message : RuleFault → String
  | unknownProvider given => "unknown provider " ++ given.literal
  | strategyUnsupported provider =>
    "provider " ++ provider.text ++ " does not support a strategy"
  | form fault => fault.message

/-- The rule that directive arguments declare. -/
def Rule.declared (args : Form.Fields) : Except RuleFault Rule := do
  let given := (Tree.lookup (.text "provider") args).getD .null
  match given.text?.bind Provider.ofText? with
  | none => throw (.unknownProvider given)
  | some provider =>
    let strategy := (Tree.lookup (.text "strategy") args).getD .null
    if !strategy.isNull && !provider.poolBased then throw (.strategyUnsupported provider)
    (Rule.read (.map args)).mapError .form

end SchemaLoom.Access
