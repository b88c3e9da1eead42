import OrdinalMap.Bitmap.Text
import OrdinalMap.Domain.Named
import OrdinalMap.Proofs.Pool.Model
import OrdinalMap.Proofs.Pool.Walk
import OrdinalMap.Proofs.Pool.Drain
import OrdinalMap.Proofs.Table.Complete
import OrdinalMap.Proofs.Table.Alike
import OrdinalMap.Proofs.Table.Blind
import OrdinalMap.Proofs.Pool.Alike
import OrdinalMap.Proofs.Pool.Policy
import OrdinalMap.Proofs.Pool.History
import OrdinalMap.Proofs.Recording
import OrdinalMap.Proofs.Table.Recording
import OrdinalMap.Proofs.Pool.Recording
import OrdinalMap.Proofs.Bitmap.Finite
import OrdinalMap.Proofs.Skip
import OrdinalMap.Proofs.Pool.Cursor
import OrdinalMap.Proofs.Base
import OrdinalMap.Proofs.Pool.Conversion
import OrdinalMap.Proofs.Pool.Failure
import OrdinalMap.Proofs.Pool.Collect
import OrdinalMap.Proofs.Pool.Copy
import OrdinalMap.Proofs.Bitmap.Stepwise
import OrdinalMap.Proofs.Pool.Retain
import OrdinalMap.Proofs.Pool.Erase
import OrdinalMap.Proofs.Pool.Release
import OrdinalMap.Proofs.Table.Build
import OrdinalMap.Proofs.Pool.Build
import OrdinalMap.Proofs.Pool.Commute
import OrdinalMap.Proofs.Bitmap.Walking
import OrdinalMap.Proofs.Bitmap.Text
