import SkosArchive.Order.IriMap

namespace SkosArchive

/-- Where a workspace keeps its working copy of a vocabulary. -/
structure WorkingCopy where
  vocabulary : Iri
  context : Iri
  changeTracking : Option Iri
deriving DecidableEq

/-- The working copies of a workspace by vocabulary. -/
structure Workspace where
  iri : Iri
  copies : IriMap WorkingCopy
deriving DecidableEq

namespace Workspace

def empty (iri : Iri) : Workspace := ⟨iri, .empty⟩

def withCopy (w : Workspace) (copy : WorkingCopy) : Workspace :=
  { w with copies := w.copies.insert copy.vocabulary copy }

def copy? (w : Workspace) (vocabulary : Iri) : Option WorkingCopy := w.copies.get? vocabulary

def vocabularies (w : Workspace) : List Iri := w.copies.keys

def sorted (l : List Iri) : List Iri := l.mergeSort fun a b => !decide (b < a)

/-- The contexts of the working copies in ascending order. -/
def contexts (w : Workspace) : List Iri := sorted (w.copies.values.map WorkingCopy.context)

def changeTrackingContexts (w : Workspace) : List Iri :=
  sorted (w.copies.values.filterMap WorkingCopy.changeTracking)

end Workspace

end SkosArchive
