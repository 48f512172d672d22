import StackCode.BucketList.Lemmas
import StackCode.Code.Listing
import StackCode.Code.Writer
import StackCode.IndexTable.Capacity
import StackCode.Key.Number
import StackCode.Key.Symbol
import StackCode.OrderedSet
import StackCode.Proofs.BucketList.History
import StackCode.Proofs.Code.Accounts
import StackCode.Proofs.Code.Branches
import StackCode.Proofs.Code.CallText
import StackCode.Proofs.Code.Capacity
import StackCode.Proofs.Code.Lines
import StackCode.Proofs.Code.Listing
import StackCode.Proofs.Code.Quoting
import StackCode.Proofs.Code.Rendering
import StackCode.Proofs.Code.Run
import StackCode.Proofs.Code.Spans
import StackCode.Proofs.Digits
import StackCode.Proofs.IndexTable.Erasure
import StackCode.Proofs.IndexTable.Filled
import StackCode.Proofs.IndexTable.History
import StackCode.Proofs.IndexTable.Lowest
import StackCode.Proofs.IndexTable.Order
import StackCode.Proofs.IndexTable.Rebuilt
import StackCode.Proofs.IndexTable.RoundTrip
import StackCode.Proofs.IndexTable.Sizing
import StackCode.Proofs.IndexTable.Unbounded
import StackCode.Proofs.OrderedMap.Comparison
import StackCode.Proofs.OrderedMap.Condensed
import StackCode.Proofs.OrderedMap.Equality
import StackCode.Proofs.OrderedMap.Plain
import StackCode.Proofs.OrderedMap.Reachable
import StackCode.Proofs.OrderedMap.Safety
import StackCode.Proofs.OrderedMap.Served
import StackCode.Proofs.OrderedMap.Sorted
import StackCode.Proofs.OrderedMap.Spelling
import StackCode.Proofs.OrderedMap.Switch
import StackCode.Proofs.OrderedSet.Comparison
import StackCode.Proofs.OrderedSet.Plain
import StackCode.Value.Object
