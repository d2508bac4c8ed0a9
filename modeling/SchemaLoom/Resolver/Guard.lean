/-
Guards.

Guards are blocks of templates that turn callers away or hide items from them.

### Access

Access rules guard against the members of user pools only: the callers of other providers
are admitted by the directives on an operation.  A rule without a strategy admits every
member, so guards are needed only if every rule for members has one.  A caller who is in one
of the groups is admitted at once; any other has to be an owner.

### Tenancy

The tenant of a caller is read from a claim; a caller without one is turned away.
-/
import SchemaLoom.Access.Rule
import SchemaLoom.Resolver.Template
import SchemaLoom.Table.Tenancy
import SchemaLoom.Text.Escape

namespace SchemaLoom.Access

/-- The directives that open a declaration to the callers of providers. -/
def annotations (providers : List Provider) : List String :=
  Text.distinct (providers.map (·.directive))

/-- The members of user pools have to be checked. -/
def needsGuard (rules : List Rule) : Bool :=
  let poolRules := rules.filter (·.provider.poolBased)
  !poolRules.isEmpty && poolRules.all (·.strategy.isSome)

/-- The owner strategies of rules. -/
def owners (rules : List Rule) : List Owner :=
  rules.filterMap fun r =>
    match r.strategy with
    | some (.owner criterion) => some criterion
    | _ => none

/-- The group strategies of rules. -/
def groups (rules : List Rule) : List Groups :=
  rules.filterMap fun r =>
    match r.strategy with
    | some (.groups criterion) => some criterion
    | _ => none

/-- The groups that are admitted by each claim, the claims in the order in which they first
occur. -/
def groupsByClaim (rules : List Rule) : List (String × List String) :=
  let all := groups rules
  (Text.distinct (all.map (·.claim))).map fun claim =>
    (claim, Text.distinct ((all.filter fun g => g.claim = claim).flatMap (·.names)))

end SchemaLoom.Access

namespace SchemaLoom.Resolver

open SchemaLoom.Access

/-! ### Callers -/

/-- A name that no caller has. -/
def nobody : String := "___xamznone____"

/-- A claim of the caller. -/
def claim (name : String) : String := "$ctx.identity.claims.get(" ++ quoted name ++ ")"

/-- The name of the caller by a claim. -/
def identity (name : String) : String :=
  if name = defaultIdentityClaim then
    orElse (claim name) (orElse (claim "cognito:username") (quoted nobody))
  else orElse (claim name) (quoted nobody)

/-- Finds out whether the caller is a member of a user pool. -/
def authMode : Template :=
  remark "[Start] Determine request authentication mode"
    :: whenever
      (" && ".intercalate
        ("$util.isNullOrEmpty($authMode)"
          :: ["", ".sub", ".issuer", ".claims"].map fun part => isGiven ("$ctx.identity" ++ part)))
      [assign "$authMode" (quoted "userPools")]
    ++ [remark "[End] Determine request authentication mode"]

/-- Finds out whether the caller is in one of the groups. -/
def groupLines (rules : List Rule) : Template :=
  let one := fun (entry : (String × List String) × Nat) =>
    let ((name, allowed), index) := entry
    let own := "$userGroups" ++ toString index
    let admitted := "$allowedGroups" ++ toString index
    [assign own (orElse (claim name) "[]"), assign admitted (Text.asciiQuotedList allowed)]
      ++ forEach "$userGroup" own
        (whenever (admitted ++ ".contains($userGroup)") [assign "$isStaticGroupAuthorized" "true"])
  assign "$isStaticGroupAuthorized" "false" :: (groupsByClaim rules).zipIdx.flatMap one

/-- A template that is a blank line if it would be empty. -/
def orBlank (t : Template) : Template := if t.isEmpty then [""] else t

/-- Notes that the caller is an owner. -/
def grantOwner : String := assign "$isOwnerAuthorized" "true"

/-- Finds out whether the caller is an owner of a record. -/
def ownerLines (rules : List Rule) (record : String) : Template :=
  let one := fun (entry : Owner × Nat) =>
    let (owner, index) := entry
    let allowed := "$allowedOwners" ++ toString index
    let caller := "$identityValue" ++ toString index
    [assign allowed (record ++ "." ++ owner.field), assign caller (identity owner.claim),
        "#if( $util.isList(" ++ allowed ++ ") )"]
      ++ shifted
        (forEach "$allowedOwner" allowed (whenever ("$allowedOwner == " ++ caller) [grantOwner]))
      ++ ["#elseif( " ++ allowed ++ " == " ++ caller ++ " )"] ++ shifted [grantOwner] ++ ["#end"]
  orBlank ((owners rules).zipIdx.flatMap one)

/-- Finds out whether the caller will be an owner of the item of a mutation; an owner that is not
given becomes the caller. -/
def ownInputLines (rules : List Rule) : Template :=
  let one := fun (entry : Owner × Nat) =>
    let (owner, index) := entry
    let caller := "$identityValue" ++ toString index
    assign caller (identity owner.claim)
      :: whenever ("$util.isNull(" ++ input owner.field ++ ")") [putInput owner.field caller]
      ++ whenever (input owner.field ++ " == " ++ caller) [grantOwner]
  orBlank ((owners rules).zipIdx.flatMap one)

/-- Lines that count for members of a user pool, as a block under a title. -/
def memberBlock (title : String) (rules : List Rule) (body : Template) : Template :=
  if needsGuard rules then
    authMode ++ remark ("[Start] " ++ title)
      :: whenever "$authMode == \"userPools\"" (groupLines rules ++ body)
      ++ [remark ("[End] " ++ title)]
  else []

/-- Turns the caller away who was not found to be an owner. -/
def ownersOnly (condition : String) (ownership : Template) : Template :=
  whenever condition
    (assign "$isOwnerAuthorized" "false" :: ownership ++ whenever "!$isOwnerAuthorized" [reject])

/-- The condition that the caller is in none of the groups. -/
def inNoGroup : String := "!$isStaticGroupAuthorized"

/-! ### Access -/

/-- Turns the caller away who may not read the result. -/
def itemGuard (rules : List Rule) : Template :=
  memberBlock "Authorization checks" rules
    (ownersOnly (inNoGroup ++ " && " ++ isGiven "$ctx.result") (ownerLines rules "$ctx.result"))

/-- Hides the items of the result that the caller may not read. -/
def listGuard (rules : List Rule) : Template :=
  memberBlock "Authorization filter" rules
    (whenever inNoGroup
      (assign "$items" "[]"
        :: forEach "$item" "$ctx.result.items"
          (assign "$isOwnerAuthorized" "false" :: ownerLines rules "$item"
            ++ whenever "$isOwnerAuthorized" [perform "$items.add($item)"])
        ++ [assign "$ctx.result.items" "$items"]))

/-- Turns the caller away who may not create the item. -/
def createGuard (rules : List Rule) : Template :=
  memberBlock "Authorization checks" rules (ownersOnly inNoGroup (ownInputLines rules))

/-- Restricts a change to the items that the caller owns. -/
def changeGuard (rules : List Rule) : Template :=
  let all := (owners rules).zipIdx
  let one := fun (entry : Owner × Nat) =>
    [put "$authCondition.expressionNames" ("#owner" ++ toString entry.2) (quoted entry.1.field),
      put "$authCondition.expressionValues" (":identity" ++ toString entry.2)
        (stored (identity entry.1.claim))]
  let term := fun (entry : Owner × Nat) =>
    "#owner" ++ toString entry.2 ++ " = :identity" ++ toString entry.2
  memberBlock "Authorization condition" rules
    (whenever inNoGroup
      (if all.isEmpty then [reject]
      else
        assign "$authCondition"
            (inlineMap [named "expression" (quoted ""), named "expressionNames" "\x7b\x7d",
              named "expressionValues" "\x7b\x7d"])
          :: all.flatMap one
          ++ [assign "$authCondition.expression"
            (quoted ("(" ++ " OR ".intercalate (all.map term) ++ ")"))]))

/-- Turns the caller away who may not read a field of a record. -/
def fieldGuard (rules : List Rule) (record : String) : Template :=
  memberBlock "Field authorization checks" rules (ownersOnly inNoGroup (ownerLines rules record))

/-! ### Tenancy -/

/-- Finds out the tenant of the caller. -/
def tenantLines (t : Tenancy) : Template :=
  [remark "[Start] Resolve tenant", assign "$tenant" (quoted "")]
    ++ whenever (isGiven "$ctx.identity" ++ " && " ++ isGiven "$ctx.identity.claims")
      [assign "$tenant" (orElse (claim t.claim) (quoted ""))]
    ++ whenever "$util.isNullOrEmpty($tenant)" [reject]
    ++ [remark "[End] Resolve tenant"]

/-- Gives a new item to the tenant of the caller. -/
def tenantCreate (t : Tenancy) : Template := tenantLines t ++ [putInput t.field "$tenant"]

/-- The condition that an item belongs to the tenant. -/
def ofTenant : String := "#tenant = :tenant"

/-- A variable set to the condition that items belong to the tenant. -/
def tenantExpression (t : Tenancy) (lead : String) : Template :=
  mapping lead
    [[named "expression" (quoted ofTenant)],
      submap "expressionNames" [named "#tenant" (quoted t.field)],
      submap "expressionValues" [named ":tenant" (stored "$tenant")]]
    " )"

/-- Lists the items of the tenant alone. -/
def tenantList (t : Tenancy) : Template :=
  tenantLines t ++ tenantExpression t "#set( $modelQueryExpression = "
    ++ [assign "$modelQueryIndex" (quoted t.indexName)]

/-- Restricts a change to the items of the tenant. -/
def tenantCondition (t : Tenancy) : Template :=
  tenantLines t
    ++ branch "$util.isNull($authCondition) || $authCondition.expression == \"\""
      (tenantExpression t "  #set( $authCondition = ")
      (shifted
        [put "$authCondition" "expression"
            (quoted ("($authCondition.expression) AND " ++ ofTenant)),
          put "$authCondition.expressionNames" "#tenant" (quoted t.field),
          put "$authCondition.expressionValues" ":tenant" (stored "$tenant")])

/-- Turns the caller away if the result belongs to another tenant. -/
def tenantItemGuard (t : Tenancy) : Template :=
  tenantLines t
    ++ whenever (isGiven "$ctx.result" ++ " && $ctx.result." ++ t.field ++ " != $tenant") [reject]

/-- Hides the items of the result that belong to other tenants. -/
def tenantListGuard (t : Tenancy) : Template :=
  tenantLines t ++ assign "$tenantItems" "[]"
    :: forEach "$item" "$ctx.result.items"
      (whenever ("$item." ++ t.field ++ " == $tenant") [perform "$tenantItems.add($item)"])
    ++ [assign "$ctx.result.items" "$tenantItems"]

end SchemaLoom.Resolver
