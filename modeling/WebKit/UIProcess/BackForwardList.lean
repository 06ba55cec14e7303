import Mathlib.Data.List.Nodup
import WebKit.Lib.Runs

/-!
# The back-forward list of a page

`WebBackForwardList` holds the items of a page and the index of the current one. Every mutation
tells the page which items it removed. The list can be saved, without the items that a filter
rejects, and restored.

The page is open in all of this. An access past the end of the vector is a crash, which is `none`.
-/

namespace WebKit.UIProcess

/-- `BackForwardListItemState`. -/
structure ItemState (α : Type*) where
  identifier : Nat
  pageState : α
  deriving DecidableEq

/-- A `WebBackForwardListItem`, with the address of the object. -/
structure Item (α : Type*) where
  address : Nat
  itemState : ItemState α
  deriving DecidableEq

structure BackForwardListState (α : Type*) where
  items : List (ItemState α)
  currentIndex : Option Nat
  deriving DecidableEq

structure WebBackForwardList (α : Type*) where
  entries : List (Item α)
  hasCurrentIndex : Bool
  currentIndex : Nat
  capacity : Nat

/-- What a mutation tells the page. -/
structure Report (α : Type*) where
  /-- The items of `didChangeBackForwardList`. -/
  removedItems : List (Item α) := []
  /-- The items of the calls of `didRemoveItem`. -/
  didRemoveItem : List (Item α) := []

namespace WebBackForwardList

variable {α : Type*}

/-- The constructor. Its capacity is `DefaultCapacity`, 100. -/
def create (capacity : Nat) : WebBackForwardList α where
  entries := []
  hasCurrentIndex := false
  currentIndex := 0
  capacity := capacity

/-! ## `addItem` -/

variable (l : WebBackForwardList α)

/-- Toss the first item if the list is getting too big. -/
def tossFirst (r : Report α) :
    Option (WebBackForwardList α × Report α) :=
  if l.entries.length = l.capacity ∧ (l.currentIndex ≠ 0 ∨ l.capacity = 1) then
    match l.entries with
    | [] => none
    | first :: rest =>
      let r : Report α := ⟨r.removedItems ++ [first], r.didRemoveItem ++ [first]⟩
      if rest.isEmpty then some ({ l with entries := rest, hasCurrentIndex := false }, r)
      else some ({ l with entries := rest, currentIndex := l.currentIndex - 1 }, r)
  else some (l, r)

/-- The first half: toss everything in the forward list, from its end. -/
def toss : Option (WebBackForwardList α × Report α) :=
  if l.hasCurrentIndex then
    let targetSize := l.currentIndex + 1
    if l.entries.length < targetSize then none
    else
      let forward := (l.entries.drop targetSize).reverse
      tossFirst { l with entries := l.entries.take targetSize } ⟨forward, forward⟩
  else some ({ l with entries := [] }, ⟨l.entries, l.entries⟩)

/-- The second half. The client is asked whether to keep the current item. -/
def insert (newItem : Item α) (shouldKeepCurrentItem : Bool)
    (r : Report α) : Option (WebBackForwardList α × Report α) :=
  if l.hasCurrentIndex then
    match l.entries[l.currentIndex]? with
    | none => none
    | some current =>
      if shouldKeepCurrentItem then
        some ({ l with
          currentIndex := l.currentIndex + 1
          entries := l.entries.insertIdx (l.currentIndex + 1) newItem }, r)
      else
        some ({ l with entries := l.entries.set l.currentIndex newItem },
          { r with removedItems := r.removedItems ++ [current] })
  else
    some ({ l with
      currentIndex := 0
      hasCurrentIndex := true
      entries := l.entries.insertIdx 0 newItem }, r)

def addItem (newItem : Item α) (shouldKeepCurrentItem : Bool) :
    Option (WebBackForwardList α × Report α) :=
  if l.capacity = 0 then some (l, {})
  else
    match l.toss with
    | none => none
    | some (l, r) => l.insert newItem shouldKeepCurrentItem r

/-! ## `goToItem` -/

/-- `Vector::find` of an item. -/
def find (item : Nat) : Option Nat :=
  l.entries.findIdx? fun e => e.address = item

/-- `goToItem` of the item at an address. -/
def goToItem (item : Nat) (shouldKeepCurrentItem : Bool) :
    Option (WebBackForwardList α × Report α) :=
  if l.entries.isEmpty ∨ ¬ l.hasCurrentIndex then some (l, {})
  else
    match l.find item with
    | none => some (l, {})
    | some targetIndex =>
      match l.entries[l.currentIndex]? with
      | none => none
      | some currentItem =>
        -- the client is only asked about an item that is different from the target
        if currentItem.address = item ∨ shouldKeepCurrentItem then
          some ({ l with currentIndex := targetIndex }, {})
        else
          let l := { l with entries := l.entries.eraseIdx l.currentIndex }
          match l.find item with
          | none => none
          | some targetIndex =>
            some ({ l with currentIndex := targetIndex }, { removedItems := [currentItem] })

/-! ## `removeAllItems` and `clear` -/

def removeAllItems : WebBackForwardList α × Report α :=
  ({ l with entries := [], hasCurrentIndex := false }, ⟨l.entries, l.entries⟩)

def clear : Option (WebBackForwardList α × Report α) :=
  if l.entries.length ≤ 1 then some (l, {})
  else if l.hasCurrentIndex then
    match l.entries[l.currentIndex]? with
    | none => none
    | some currentItem =>
      some ({ l with entries := [currentItem], currentIndex := 0 },
        ⟨l.entries.eraseIdx l.currentIndex,
          l.entries.filter fun e => e.address ≠ currentItem.address⟩)
  else some ({ l with entries := [], hasCurrentIndex := false }, ⟨l.entries, l.entries⟩)

/-! ## Saving and restoring -/

/-- The loop of `backForwardListState`, from the entry `i` on. -/
def saveLoop (filter : Option (Item α → Bool)) :
    Nat → List (Item α) → BackForwardListState α → BackForwardListState α
  | _, [], state => state
  | i, entry :: rest, state =>
    if filter.any fun f => !f entry then
      saveLoop filter (i + 1) rest { state with
        currentIndex := state.currentIndex.map fun currentIndex =>
          if i ≤ currentIndex ∧ currentIndex ≠ 0 then currentIndex - 1 else currentIndex }
    else
      saveLoop filter (i + 1) rest { state with items := state.items ++ [entry.itemState] }

def backForwardListState (filter : Option (Item α → Bool)) :
    BackForwardListState α :=
  let state := saveLoop filter 0 l.entries
    { items := [], currentIndex := if l.hasCurrentIndex then some l.currentIndex else none }
  if state.items.isEmpty then { state with currentIndex := none } else state

/-- New items for the saved ones, with new even identifiers from `generateWebBackForwardItemID`. -/
def createItems (address uniqueHistoryItemID : Nat) : List (ItemState α) → List (Item α)
  | [] => []
  | state :: rest =>
    ⟨address, { state with identifier := uniqueHistoryItemID + 2 }⟩ ::
      createItems (address + 1) (uniqueHistoryItemID + 2) rest

/-- `restoreFromState`. It tells the page nothing. -/
def restoreFromState (address uniqueHistoryItemID : Nat)
    (state : BackForwardListState α) : WebBackForwardList α :=
  { l with
    hasCurrentIndex := state.currentIndex.isSome
    currentIndex := state.currentIndex.getD 0
    entries := createItems address uniqueHistoryItemID state.items }

end WebBackForwardList

/-! ## The machine -/

structure Mutation (α : Type*) where
  before : List (Item α)
  after : List (Item α)
  report : Report α

/-- A state that was saved, and of what. -/
structure Saved (α : Type*) where
  list : WebBackForwardList α
  filter : Option (Item α → Bool)
  state : BackForwardListState α

/-- A list with its history. -/
structure Session (α : Type*) where
  list : WebBackForwardList α
  /-- The number of items that were created so far; their addresses are below it. -/
  created : Nat
  uniqueHistoryItemID : Nat
  mutations : List (Mutation α)
  saved : List (Saved α)

inductive Event (α : Type*)
  /-- `addItem` of a new item. -/
  | addItem (itemState : ItemState α) (shouldKeepCurrentItem : Bool)
  | goToItem (item : Nat) (shouldKeepCurrentItem : Bool)
  | clear
  | removeAllItems
  | save (filter : Option (Item α → Bool))
  /-- `restoreFromState` of one of the saved states. -/
  | restore (saved : Nat)

namespace Session

variable {α : Type*}

def initial (capacity uniqueHistoryItemID : Nat) : Session α where
  list := .create capacity
  created := 0
  uniqueHistoryItemID := uniqueHistoryItemID
  mutations := []
  saved := []

def mutate (s : Session α) (result : WebBackForwardList α × Report α) : Session α :=
  { s with
    list := result.1
    mutations := ⟨s.list.entries, result.1.entries, result.2⟩ :: s.mutations }

def step (s : Session α) : Event α → Option (Session α)
  | .addItem itemState shouldKeepCurrentItem =>
    (s.list.addItem ⟨s.created, itemState⟩ shouldKeepCurrentItem).map fun result =>
      { s.mutate result with created := s.created + 1 }
  | .goToItem item shouldKeepCurrentItem =>
    (s.list.goToItem item shouldKeepCurrentItem).map s.mutate
  | .clear => s.list.clear.map s.mutate
  | .removeAllItems => some (s.mutate s.list.removeAllItems)
  | .save filter =>
    some { s with saved := ⟨s.list, filter, s.list.backForwardListState filter⟩ :: s.saved }
  | .restore saved =>
    match s.saved[saved]? with
    | none => none
    | some state =>
      some { s.mutate (s.list.restoreFromState s.created s.uniqueHistoryItemID state.state,
          {}) with
        created := s.created + state.state.items.length
        uniqueHistoryItemID := s.uniqueHistoryItemID + 2 * state.state.items.length }

end Session

end WebKit.UIProcess
