import Mathlib.Data.Finset.Insert
import WebKit.ContentExtensions.Actions

/-!
# The domain cache of a content extension

A content extension remembers, for the last domain it was asked about, which domain actions match
it and which universal actions that leaves. The interpreter of the domain filters is any function
of the domain's characters.

The cache starts with the null string as its domain and nothing in it. Only a null domain takes
this for an answer, and only before any other domain was asked about.
-/

namespace WebKit.ContentExtensions

def IfDomainFlag : BitVec 64 := 0x0001000000000000

/-- A `String` that names a domain; `none` is the null string. -/
abbrev Domain := Option (List UChar)

/-- What fills the cache: `interpret` of the domain filters, and `m_universalActionsWithDomains`. -/
structure ContentExtension where
  interpret : List UChar → Finset (BitVec 64)
  universalActionsWithDomains : List (BitVec 64)

/-- `m_cachedDomain`, `m_cachedDomainActions` and `m_cachedUniversalDomainActions`. -/
structure DomainCache where
  cachedDomain : Domain := none
  cachedDomainActions : Finset (BitVec 64) := ∅
  cachedUniversalDomainActions : List (BitVec 32) := []

/-- A call of one of the two functions that read the cache. -/
inductive DomainCall where
  | cachedDomainActions (domain : Domain)
  | universalActionsWithDomains (domain : Domain)

def DomainCall.domain : DomainCall → Domain
  | cachedDomainActions domain | universalActionsWithDomains domain => domain

/-- What a call returns: a set of actions with flags, or a vector of locations. -/
inductive DomainAnswer where
  | actions (set : Finset (BitVec 64))
  | locations (vector : List (BitVec 32))
deriving DecidableEq

namespace ContentExtension

variable (extension : ContentExtension)

def populateDomainCacheIfNeeded (domain : Domain) (cache : DomainCache) : DomainCache :=
  if cache.cachedDomain ≠ domain then
    let domainActions := extension.interpret (domain.getD [])
    { cachedDomain := domain
      cachedDomainActions := domainActions
      cachedUniversalDomainActions := (extension.universalActionsWithDomains.filter fun action =>
        decide (action &&& IfDomainFlag ≠ 0) == decide (action ∈ domainActions)).map
          (BitVec.setWidth 32) }
  else cache

/-- `ContentExtension::cachedDomainActions` and
`ContentExtension::universalActionsWithDomains`. -/
def call (cache : DomainCache) (c : DomainCall) : DomainCache × DomainAnswer :=
  let cache := extension.populateDomainCacheIfNeeded c.domain cache
  match c with
  | .cachedDomainActions _ => (cache, .actions cache.cachedDomainActions)
  | .universalActionsWithDomains _ => (cache, .locations cache.cachedUniversalDomainActions)

/-- The answers to a sequence of calls. -/
def answers (cache : DomainCache) : List DomainCall → List DomainAnswer
  | [] => []
  | c :: calls => (extension.call cache c).2 :: answers (extension.call cache c).1 calls

/-- The answer without a cache: the actions of the domain filters, and the universal actions whose
flag says whether they are among them. -/
def fromScratch : DomainCall → DomainAnswer
  | .cachedDomainActions domain => .actions (extension.interpret (domain.getD []))
  | .universalActionsWithDomains domain =>
    .locations ((extension.universalActionsWithDomains.filter fun action =>
      action &&& IfDomainFlag ≠ 0 ↔ action ∈ extension.interpret (domain.getD [])).map
        (BitVec.setWidth 32))

/-- The cache holds what belongs to its domain. -/
structure Filled (cache : DomainCache) : Prop where
  actions : .actions cache.cachedDomainActions =
    extension.fromScratch (.cachedDomainActions cache.cachedDomain)
  locations : .locations cache.cachedUniversalDomainActions =
    extension.fromScratch (.universalActionsWithDomains cache.cachedDomain)

variable {extension} {cache : DomainCache}

/-- Populating fills the cache; one for the domain already has to be filled before. -/
theorem filled_populate {domain : Domain}
    (h : cache.cachedDomain = domain → extension.Filled cache) :
    (extension.populateDomainCacheIfNeeded domain cache).cachedDomain = domain ∧
      extension.Filled (extension.populateDomainCacheIfNeeded domain cache) := by
  unfold populateDomainCacheIfNeeded
  split
  case isTrue =>
    refine ⟨rfl, rfl, congrArg _ (congrArg _ (List.filter_congr fun action _ => ?_))⟩
    rw [Bool.eq_iff_iff, beq_iff_eq, decide_eq_decide, decide_eq_true_iff]
  case isFalse hsame =>
    have hsame := not_not.mp hsame
    exact ⟨hsame, h hsame⟩

/-- One call answers as without a cache, and leaves the cache filled. -/
theorem call_spec (c : DomainCall) (h : cache.cachedDomain = c.domain → extension.Filled cache) :
    extension.Filled (extension.call cache c).1 ∧
      (extension.call cache c).2 = extension.fromScratch c := by
  obtain ⟨hdomain, hfilled⟩ := filled_populate h
  cases c with
  | cachedDomainActions domain => exact ⟨hfilled, hfilled.actions.trans (by rw [hdomain]; rfl)⟩
  | universalActionsWithDomains domain =>
    exact ⟨hfilled, hfilled.locations.trans (by rw [hdomain]; rfl)⟩

theorem answers_of_filled (calls : List DomainCall) (h : extension.Filled cache) :
    extension.answers cache calls = calls.map extension.fromScratch := by
  induction calls generalizing cache with
  | nil => rfl
  | cons c calls ih =>
    obtain ⟨hfilled, hanswer⟩ := call_spec c fun _ => h
    rw [answers, hanswer, ih hfilled, List.map_cons]

/-- The cache is invisible to every sequence of calls that does not start with the
null domain. -/
theorem answers_eq_fromScratch (extension : ContentExtension) (calls : List DomainCall)
    (hfirst : ∀ c ∈ calls.head?, c.domain ≠ none) :
    extension.answers {} calls = calls.map extension.fromScratch := by
  cases calls with
  | nil => rfl
  | cons c calls =>
    -- the initial cache is not filled, but the first call is not for its domain
    have hother : ({} : DomainCache).cachedDomain = c.domain → extension.Filled {} :=
      fun h => absurd h.symm (hfirst c rfl)
    obtain ⟨hfilled, hanswer⟩ := call_spec c hother
    rw [answers, hanswer, answers_of_filled calls hfilled, List.map_cons]

end ContentExtension

/-- One rule for every URL, with `unless-domain` a single letter: its action is universal, and the
domain filters give it on that letter. -/
def unlessDomain : ContentExtension where
  interpret domain := if domain = [0x61] then {0} else ∅
  universalActionsWithDomains := [0]

theorem unlessDomain_alternating :
    unlessDomain.answers {} [.universalActionsWithDomains (some []),
      .universalActionsWithDomains none, .cachedDomainActions (some [0x61])] =
        [.locations [0], .locations [0], .actions {0}] :=
  (unlessDomain.answers_eq_fromScratch _ (by simp [DomainCall.domain])).trans (by decide)

/-- Asked about the null domain first, the extension forgets the rule. -/
theorem unlessDomain_null_first :
    unlessDomain.answers {} [.universalActionsWithDomains none] = [.locations []] ∧
      unlessDomain.fromScratch (.universalActionsWithDomains none) = .locations [0] := by
  decide

end WebKit.ContentExtensions
