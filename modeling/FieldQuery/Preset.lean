import FieldQuery.Query.Step

/-!
# Ready-made searches

Each preset is a short list of steps on an empty query, with the caller's arguments in their
places. Only a search for a name can be refused, because a fragment may be too short; the fault
then names the preset and keeps the refusal as its cause.
-/

namespace FieldQuery

inductive Preset where
  | customerByEmail (email : String)
  | customersByName (fragment : String)
  | chargesWithStatusSince (status : String) (since : Number)
  | chargesOverAmount (amount : Number) (currency : String)
  | paymentIntentsByMetadata (key : String) (value : Value)
  | invoicesWithStatusBetween (status : String) (start finish : Number)
  | subscriptionsWithStatus (status : String)
  | byMetadata (key : String) (value : Value)
  deriving DecidableEq, Repr

namespace Preset

def fieldEquals (name content : String) : Step := .equals (.field name) false (.text content)

def steps : Preset → List Step
  | .customerByEmail email => [fieldEquals Grammar.emailField email]
  | .customersByName fragment => [.contains (.field Grammar.nameField) false fragment]
  | .chargesWithStatusSince status since =>
    [fieldEquals Grammar.statusField status, .connect .and,
      .compare Grammar.createdField false .greaterEqual since]
  | .chargesOverAmount amount currency =>
    [.compare Grammar.amountField false .greater amount, .connect .and,
      fieldEquals Grammar.currencyField currency]
  | .paymentIntentsByMetadata key value => [.equals (.metadata key) false value]
  | .invoicesWithStatusBetween status start finish =>
    [fieldEquals Grammar.statusField status, .connect .and,
      .between Grammar.createdField false start finish]
  | .subscriptionsWithStatus status => [fieldEquals Grammar.statusField status]
  | .byMetadata key value => [.equals (.metadata key) false value]

/-- The fault that a refused preset reports. -/
def fault : Preset → Reason → Fault
  | .customersByName _, r =>
    .caused r.kind ("Preset customers_by_name rejected its input: " ++ r.message) r.fault
  | _, r => r.fault

def query (p : Preset) : Except Fault Query :=
  match (Step.actAll p.steps).run .empty with
  | .ok _ q => .ok q
  | .error r _ => .error (p.fault r)

end Preset

end FieldQuery
