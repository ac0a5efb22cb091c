import PicksOnMap.Guarantees.AddedPicks
import PicksOnMap.Guarantees.StoredHistory
import PicksOnMap.Guarantees.ListedDeletion
import PicksOnMap.Guarantees.ConcurrentEdits
import PicksOnMap.Guarantees.PickLookup
import PicksOnMap.Guarantees.DeleteConfirmation
import PicksOnMap.Guarantees.MapCentering
import PicksOnMap.Guarantees.OnePickPerPress
import PicksOnMap.Guarantees.TapRecognizers
import PicksOnMap.Guarantees.SessionPresenters
import PicksOnMap.Guarantees.SessionsTogether
import PicksOnMap.Guarantees.KeyEnumerators
import PicksOnMap.Guarantees.PathTrees
import PicksOnMap.Guarantees.WrittenNodes
import PicksOnMap.Guarantees.CompoundWrites
import PicksOnMap.Guarantees.PendingWrites
import PicksOnMap.Guarantees.LocalWrites
import PicksOnMap.Guarantees.LocalView
import PicksOnMap.Guarantees.SyncedListeners
import PicksOnMap.Guarantees.Listens
