import Gorillats.Collisions
import Gorillats.Mask
import Gorillats.Recount
import Gorillats.Requests
import Gorillats.Resume
import Gorillats.Fields
import Gorillats.OneShot
import Gorillats.Overflow
import Gorillats.Sessions
import Gorillats.Shared
import Gorillats.Shifts
import Gorillats.Shortest
import Gorillats.Sizes
import Gorillats.Stepwise
import Gorillats.Truncation
import Gorillats.ValueWords
import Gorillats.Window
